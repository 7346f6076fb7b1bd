import Libsmu.WriteThread

/-!
# Requests to Drop a Buffer

`flush` sets `m_out_samples_stop` to 1 without holding the mutex and then waits for the mutex,
which the write thread gives up when it has dropped the buffer. Once woken for a buffer, the
write thread sets `m_out_samples_stop` to 0 before it begins to push. A `flush` that comes
before that has its request taken back: it waits until the whole buffer is pushed, while it
holds the `m_state` that draining the queue takes.

## Main results

* `heeded_of_orderly`: as long as every `flush` finds the buffer empty or the write thread
  past `stop = 0`, no request is lost, and a `flush` that waits for the mutex gets it within
  eight steps of the write thread.
* `Doomed.step`: the request of any other `flush` is lost as soon as the write thread gets to
  `stop = 0`.
* `flush_waits_for_ever`: the write thread turns in its loop on a full queue while `flush`
  waits.
-/

namespace Libsmu.WriteThread

variable {α : Type*} {cap : ℕ}

/-- The write thread has set `m_out_samples_stop` to 0 for the buffer and reads it again
before it leaves it. -/
def Pc.past : Pc → Bool
  | .start | .loop | .pauseTest | .stopTest | .again | .finish => true
  | _ => false

/-- There is no `off` and no `run`. -/
def Unpaused (_ : State α cap) : Act α → Prop
  | .off | .run | .resume => False
  | _ => True

instance (s : State α cap) (a : Act α) : Decidable (Unpaused s a) :=
  match a with
  | .off | .run | .resume => isFalse id
  | .thread _ | .wake | .write _ | .flush | .user | .timeout | .pop => isTrue trivial

/-- The user is about to set `m_out_samples_stop` to 1. -/
def UserPc.asks : UserPc α → Bool
  | .flushStop _ => true
  | _ => false

/-- **Orderly**: `flush` asks with the buffer empty or the write thread past `stop = 0`. -/
def Orderly (s : State α cap) : Act α → Prop
  | .user => s.user.asks = true → s.m_out_samples_buf.length = 0 ∨ s.thread.past = true
  | _ => True

instance (s : State α cap) (a : Act α) : Decidable (Orderly s a) :=
  match a with
  | .user => inferInstanceAs (Decidable (_ → _ ∨ _))
  | .thread _ | .wake | .write _ | .flush | .timeout | .pop | .off | .run | .resume =>
      isTrue trivial

/-! ### The invariant -/

/-- The user has asked in `flush` and not got the mutex yet. -/
def UserPc.requests : UserPc α → Bool
  | .flushNotify _ | .flushLock _ => true
  | _ => false

/-- **Heeded**: a request stands until the buffer that it is for is dropped. -/
structure Heeded (s : State α cap) : Prop where
  sound : Sound s
  stop : s.m_out_samples_stop = 0 ∨ s.m_out_samples_stop = 1
  running : s.thread ≠ .paused
  finish : s.thread = .finish →
    s.m_out_samples_stop = 1 ∨ s.m_out_samples_buf_cyclic = false
  left : s.thread = .unlock → s.m_out_samples_buf = []
  asked : s.asked = true → s.m_out_samples_stop = 1 ∧ s.thread.past = true
  requests : s.user.requests = true →
    s.m_out_samples_stop = 1 ∧ (s.m_out_samples_buf = [] ∨ s.thread.past = true)
  kept : s.lost = false

theorem Heeded.init : Heeded (.init α cap) where
  sound := .init
  stop := .inl rfl
  running := by simp [State.init]
  finish h := nomatch h
  left _ := rfl
  asked h := nomatch h
  requests h := nomatch h
  kept := rfl

theorem Heeded.threadStep {s t : State α cap} (h : Heeded s) (hstep : ThreadStep s t) :
    Heeded t := by
  have hsound := h.sound.threadStep hstep
  have hbusy := h.sound.busy
  obtain ⟨-, hstop, hrunning, hfinish, hleft, hasked, hrequests, hkept⟩ := h
  cases hstep with
  | take hpc hmtx =>
      rcases hpc with hpc | hpc <;>
      · refine ⟨hsound, ?_, ?_, ?_, ?_, ?_, ?_, ?_⟩ <;> simp_all [Pc.past]
  | exit hpc hexit => omega
  | _ =>
      refine ⟨hsound, ?_, ?_, ?_, ?_, ?_, ?_, ?_⟩ <;> simp_all [Pc.past, Pc.busy, Pc.begun]

theorem Heeded.woken {s : State α cap} (h : Heeded s) (hpc : s.thread = .asleep) :
    Heeded { s with thread := .woken } := by
  have hsound := h.sound.woken hpc
  obtain ⟨-, hstop, hrunning, hfinish, hleft, hasked, hrequests, hkept⟩ := h
  refine ⟨hsound, ?_, ?_, ?_, ?_, ?_, ?_, ?_⟩ <;> simp_all [Pc.past]

theorem Heeded.notify {s : State α cap} (h : Heeded s) : Heeded s.notify := by
  rcases notify_cases s with heq | ⟨hpc, heq⟩
  · rw [heq]
    exact h
  · rw [heq]
    exact h.woken hpc

/-- The user thread goes on without touching the buffer or the stop flag. -/
theorem Heeded.userGoto {s t : State α cap} (h : Heeded s) (hsound : Sound t) {user : UserPc α}
    {n : ℕ} {mtx : Option Owner} {q : BoundedQueue α cap}
    (ht : t = { s with
      user := user
      m_out_samples_avail := n
      m_out_samples_mtx := mtx
      m_out_samples_q := q })
    (hrequests : user.requests = true → s.user.requests = true) : Heeded t := by
  subst ht
  exact ⟨hsound, h.stop, h.running, h.finish, h.left, h.asked,
    fun hr => h.requests (hrequests hr), h.kept⟩

/-- A buffer is handed over to a write thread that is not busy with one. -/
theorem Heeded.assign {s : State α cap} (h : Heeded s) {b : Buffer α}
    (hpc : s.user = .assign b) :
    Heeded { s with
      m_out_samples_buf := b.samples
      m_out_samples_buf_cyclic := b.cyclic
      written := s.written ++ [b]
      user := .writeUnlock } := by
  have hbusy := h.sound.not_busy (by rw [hpc]; rfl)
  have hunlock : s.thread ≠ .unlock := fun hunlock => by
    have hmtx := h.sound.user.mp (by rw [hpc]; rfl)
    rw [h.sound.thread.mp (by rw [hunlock]; rfl)] at hmtx
    exact nomatch hmtx
  refine ⟨h.sound.userStep (.assign b hpc), h.stop, h.running, ?_,
    fun hleft => absurd hleft hunlock, h.asked, fun hr => (nomatch hr), h.kept⟩
  intro hfinish
  rw [hfinish] at hbusy
  exact nomatch hbusy

/-- **A `flush` asks.** What it finds to be dropped the write thread is past resetting. -/
theorem Heeded.flushStop {s : State α cap} (h : Heeded s) {k : Option (Buffer α)}
    (hpc : s.user = .flushStop k)
    (hok : s.m_out_samples_buf.length = 0 ∨ s.thread.past = true) :
    Heeded { s with
      m_out_samples_stop := 1
      asked := s.asked || !s.m_out_samples_buf.isEmpty
      user := .flushNotify k } := by
  have hempty : s.m_out_samples_buf = [] ∨ s.thread.past = true :=
    hok.imp_left List.length_eq_zero_iff.mp
  refine ⟨h.sound.userStep (.flushStop k hpc), .inr rfl, h.running, fun _ => .inl rfl, h.left,
    fun hasked => ⟨rfl, ?_⟩, fun _ => ⟨rfl, hempty⟩, h.kept⟩
  rcases (Bool.or_eq_true _ _).mp hasked with hasked | hfound
  · exact (h.asked hasked).2
  · refine hempty.resolve_left ?_
    intro hnil
    rw [hnil] at hfound
    exact nomatch hfound

theorem Heeded.userStep {s t : State α cap} (h : Heeded s) (hok : Orderly s .user)
    (hstep : UserStep s t) : Heeded t := by
  have hsound := h.sound.userStep hstep
  cases hstep with
  | assign b hpc => exact h.assign hpc
  | flushStop k hpc => exact h.flushStop hpc (hok (by rw [hpc]; rfl))
  | writeNotify hpc => exact h.notify.userGoto hsound rfl fun hr => (nomatch hr)
  | flushNotify k hpc =>
      exact h.notify.userGoto hsound rfl fun _ => by rw [notify_user, hpc]; rfl
  | free b hpc hbuf => exact h.userGoto hsound rfl fun hr => (nomatch hr)
  | bump b hpc n => exact h.userGoto hsound rfl fun hr => (nomatch hr)
  | writeLock b hpc hmtx => exact h.userGoto hsound rfl fun hr => (nomatch hr)
  | writeUnlock hpc => exact h.userGoto hsound rfl fun hr => (nomatch hr)
  | flushState k hpc => exact h.userGoto hsound rfl fun hr => (nomatch hr)
  | flushLock k hpc hmtx => exact h.userGoto hsound rfl fun hr => (nomatch hr)
  | consume k hpc => exact h.userGoto hsound rfl fun hr => (nomatch hr)
  | zeroAvail k hpc => exact h.userGoto hsound rfl fun hr => (nomatch hr)
  | flushed hpc => exact h.userGoto hsound rfl fun hr => (nomatch hr)
  | write b hpc => exact h.userGoto hsound rfl fun hr => (nomatch hr)

/-- **The step lemma.** -/
theorem Heeded.step {s t : State α cap} {a : Act α} (h : Heeded s)
    (hok : Unpaused s a ∧ Orderly s a) (hstep : (machine α cap).step s a = some t) :
    Heeded t := by
  have hsound := h.sound.step hstep
  cases step_cases hstep with
  | thread k hthread => exact h.threadStep hthread
  | user huser => exact h.userStep hok.2 huser
  | wake hpc => exact h.woken hpc
  | write b hpc hcyclic => exact h.userGoto hsound rfl fun hr => (nomatch hr)
  | writeFlush b hpc hcyclic => exact h.userGoto hsound rfl fun hr => (nomatch hr)
  | flush hpc => exact h.userGoto hsound rfl fun hr => (nomatch hr)
  | timeout b hpc => exact h.userGoto hsound rfl fun hr => (nomatch hr)
  | pop x q hstate hq =>
      exact ⟨hsound, h.stop, h.running, h.finish, h.left, h.asked, h.requests, h.kept⟩
  | off => exact hok.1.elim
  | run resuming => exact hok.1.elim
  | resume hresuming => exact hok.1.elim

/-! ### The wait for the mutex -/

/-- How many steps the write thread is away from giving up the mutex at most, once
`m_out_samples_stop` is 1. -/
def State.stepsLeft (s : State α cap) : ℕ :=
  match s.thread with
  | .loop => if s.it ≠ s.m_out_samples_buf.length then 5 else 8
  | .again => 7
  | .start => 6
  | .pauseTest => 4
  | .stopTest => 3
  | .finish => 2
  | .unlock => 1
  | .test => 1
  | _ => 0

theorem State.stepsLeft_le (s : State α cap) : s.stepsLeft ≤ 8 := by
  rw [State.stepsLeft]
  split
  · split <;> decide
  all_goals decide

/-- A step of the write thread that holds the mutex. -/
def Holding (s : State α cap) : Act α → Prop
  | .thread _ => s.m_out_samples_mtx = some .thread
  | _ => False

instance (s : State α cap) (a : Act α) : Decidable (Holding s a) :=
  match a with
  | .thread _ => inferInstanceAs (Decidable (_ = _))
  | .wake | .write _ | .flush | .user | .timeout | .pop | .off | .run | .resume => isFalse id

/-- **The step lemma** of the wait: each step of the write thread brings it closer to giving
up the mutex. -/
theorem stepsLeft_lt (k : Option (Buffer α)) (s : State α cap) (a : Act α) (t : State α cap)
    (hs : Heeded s ∧ s.user = .flushLock k) (hholding : Holding s a)
    (hstep : (machine α cap).step s a = some t) :
    (Heeded t ∧ t.user = .flushLock k) ∧ t.stepsLeft < s.stepsLeft := by
  obtain ⟨h, hpc⟩ := hs
  cases a with
  | thread n =>
      have ht := h.step (a := .thread n) ⟨trivial, trivial⟩ hstep
      have hbusy := h.sound.busy
      have hholds := h.sound.thread.mpr hholding
      obtain ⟨hstop, hpast⟩ := h.requests (by rw [hpc]; rfl)
      have hrunning := h.running
      cases threadStep_cases hstep with
      | take hlock hmtx =>
          rcases hlock with hlock | hlock <;> simp [hlock, Pc.holds] at hholds
      | push hloop n q hit hk hq =>
          exact ⟨⟨ht, hpc⟩, by simp [State.stepsLeft, hloop, hit]⟩
      | start hstart =>
          refine ⟨⟨ht, hpc⟩, ?_⟩
          have hne : s.m_out_samples_buf ≠ [] := hbusy (by rw [hstart]; rfl)
          have hlen : 0 ≠ s.m_out_samples_buf.length := fun hzero =>
            hne (List.length_eq_zero_iff.mp hzero.symm)
          simp [State.stepsLeft, hstart, hlen]
      | found hfound hor =>
          rcases hpast with hnil | hpast
          · rcases hor with hne | hneg
            · exact absurd hnil hne
            · omega
          · simp [hfound, Pc.past] at hpast
      | exit hexit hneg => omega
      | stay hstay hpos =>
          rcases hpast with hnil | hpast
          · exact absurd hnil (hbusy (by rw [hstay]; rfl))
          · simp [hstay, Pc.past] at hpast
      | reset hreset =>
          rcases hpast with hnil | hpast
          · exact absurd hnil (hbusy (by rw [hreset]; rfl))
          · simp [hreset, Pc.past] at hpast
      | pause hpause htwo => omega
      | goOn hpaused hne => exact absurd hpaused hrunning
      | turn hturn hzero => omega
      | _ =>
          refine ⟨⟨ht, hpc⟩, ?_⟩
          simp_all [State.stepsLeft]
  | _ => exact hholding.elim

/-- The write thread that holds the mutex is not stuck. -/
theorem Heeded.exists_step {s : State α cap} (h : Heeded s)
    (hmtx : s.m_out_samples_mtx = some .thread) :
    ∃ t, (machine α cap).step s (.thread 0) = some t := by
  have hholds := h.sound.thread.mpr hmtx
  have hrunning := h.running
  simp only [machine, State.threadStep]
  cases hpc : s.thread with
  | loop =>
      have hpos := h.sound.position (by rw [hpc]; rfl)
      obtain ⟨q, hq⟩ : ∃ q, s.m_out_samples_q.pushAll
          ((s.m_out_samples_buf.drop s.it).take 0) = some q :=
        ⟨s.m_out_samples_q, BoundedQueue.pushAll_eq_some_iff.mpr
          ⟨by simpa using s.m_out_samples_q.length_le, by simp⟩⟩
      simp only
      split
      · rw [if_pos (by omega), hq]
        exact ⟨_, rfl⟩
      · exact ⟨_, rfl⟩
  | lock | asleep | woken | exited =>
      simp [hpc, Pc.holds] at hholds
  | paused => exact absurd hpc hrunning
  | test | checkExit | pauseTest | stopTest | again | finish =>
      simp only
      split <;> exact ⟨_, rfl⟩
  | reset | start | unlock => exact ⟨_, rfl⟩

/-! ### Whole runs -/

/-- **No request is lost** as long as every `flush` is orderly. And while a `flush` waits for
the mutex, the write thread that holds it can go on, and within eight steps gives it up. -/
theorem heeded_of_orderly {as : List (Act α)} {s : State α cap}
    (hunpaused : (machine α cap).Meets Unpaused (.init α cap) as)
    (horderly : (machine α cap).Meets Orderly (.init α cap) as)
    (hrun : (machine α cap).run (.init α cap) as = some s) :
    s.lost = false ∧ ∀ k, s.user = .flushLock k →
      (s.m_out_samples_mtx = some .thread →
        ∃ t, (machine α cap).step s (.thread 0) = some t) ∧
      ∀ bs t, (machine α cap).Meets Holding s bs →
        (machine α cap).run s bs = some t → bs.length ≤ 8 := by
  have hok := hunpaused.and horderly
  have h : Heeded s := Machine.invariant_of_meets
    (fun _ _ _ hs hok hstep => Heeded.step hs hok hstep) Heeded.init hok hrun
  refine ⟨h.kept, fun k hpc => ⟨h.exists_step, ?_⟩⟩
  intro bs t hholding hrun
  have hle := Machine.length_le_of_rank (stepsLeft_lt k) ⟨h, hpc⟩ hholding hrun
  have hmax := s.stepsLeft_le
  omega

/-- A cyclic buffer is pushed twice and then flushed. -/
def flushedCyclic : List (Act ℕ) :=
  [.write ⟨[1, 2], true⟩] ++ List.replicate 6 .user ++ List.replicate 5 (.thread 0) ++
    [.thread 2, .thread 0, .thread 0, .thread 0, .thread 0, .flush, .user, .user, .user]

/-- The `flush` waits for the mutex, and the write thread gives it up within eight steps. -/
theorem heeded_of_orderly_cyclic : ∃ s : State ℕ 2,
    (machine ℕ 2).run (.init ℕ 2) flushedCyclic = some s ∧ s.lost = false ∧
      s.user = .flushLock none ∧
      ∀ bs t, (machine ℕ 2).Meets Holding s bs →
        (machine ℕ 2).run s bs = some t → bs.length ≤ 8 := by
  obtain ⟨s, hs⟩ := Option.isSome_iff_exists.mp
    (show ((machine ℕ 2).run (.init ℕ 2) flushedCyclic).isSome = true by decide +kernel)
  have huser : ((machine ℕ 2).run (.init ℕ 2) flushedCyclic).map State.user =
      some (.flushLock none) := by
    decide +kernel
  rw [hs] at huser
  have huser := Option.some.inj huser
  obtain ⟨hkept, hwait⟩ := heeded_of_orderly (by decide +kernel) (by decide +kernel) hs
  exact ⟨s, hs, hkept, huser, (hwait none huser).2⟩

/-- Two samples are written for a queue of one, and flushed before the write thread has woken
up. -/
def flushedEarly : List (Act ℕ) :=
  [.write ⟨[1, 2], false⟩] ++ List.replicate 6 .user ++ [.flush, .user, .user, .user] ++
    List.replicate 5 (.thread 0) ++ [.thread 1, .thread 0, .thread 0, .thread 0]

/-- **A `flush` that waits for ever.** Its request is lost; it waits for the mutex, while the
write thread, which holds it, comes round to the same state again and again. -/
theorem flush_waits_for_ever : ∃ s : State ℕ 1,
    (machine ℕ 1).Meets Unpaused (.init ℕ 1) flushedEarly ∧
      (machine ℕ 1).run (.init ℕ 1) flushedEarly = some s ∧ s.lost = true ∧
      s.user = .flushLock none ∧
      (machine ℕ 1).Meets Holding s [.thread 0, .thread 0, .thread 0] ∧
      (machine ℕ 1).run s [.thread 0, .thread 0, .thread 0] = some s := by
  have hrun : ((machine ℕ 1).run (.init ℕ 1) flushedEarly).map (fun s =>
      (s.lost, s.user, decide ((machine ℕ 1).Meets Holding s
          [.thread 0, .thread 0, .thread 0]),
        decide ((machine ℕ 1).run s [.thread 0, .thread 0, .thread 0] = some s))) =
      some (true, .flushLock none, true, true) := by
    decide +kernel
  obtain ⟨s, hs, hout⟩ := Option.map_eq_some_iff.mp hrun
  simp only [Prod.mk.injEq, decide_eq_true_eq] at hout
  exact ⟨s, by decide +kernel, hs, hout⟩

/-! ### A flush that is not orderly -/

/-- **Doomed**: a `flush` has asked for a buffer that the write thread has not taken up, and
nothing but the write thread changes that. -/
structure Doomed (s : State α cap) : Prop where
  sound : Sound s
  asked : s.asked = true
  buffer : s.m_out_samples_buf ≠ []
  early : s.thread.begun = false ∧ s.thread ≠ .start ∧ s.thread ≠ .unlock

/-- A `flush` that is not orderly is doomed, unless the write thread is paused or about to
give up the mutex. -/
theorem Doomed.of_not_orderly {s t : State α cap} (hs : Sound s) (hnot : ¬Orderly s .user)
    (hrunning : s.thread ≠ .paused) (hunlock : s.thread ≠ .unlock)
    (hstep : (machine α cap).step s .user = some t) : Doomed t := by
  rw [Orderly] at hnot
  rw [Classical.not_imp, not_or] at hnot
  obtain ⟨hasks, hne, hpast⟩ := hnot
  have ht := hs.step hstep
  cases hpc : s.user with
  | flushStop k =>
      simp only [machine, State.userStep, hpc] at hstep
      obtain rfl := Option.some.inj hstep
      have hbuf : s.m_out_samples_buf ≠ [] := fun hnil => hne (by rw [hnil]; rfl)
      refine ⟨ht, ?_, hbuf, ?_⟩
      · simp [hbuf]
      · cases hthread : s.thread <;> simp_all [Pc.past, Pc.begun]
  | _ => simp [hpc, UserPc.asks] at hasks

/-- **A doomed request is lost** at the latest when the write thread gets to `stop = 0`. -/
theorem Doomed.step {s t : State α cap} {a : Act α} (h : Doomed s)
    (hstep : (machine α cap).step s a = some t) : Doomed t ∨ t.lost = true := by
  have hsound := h.sound.step hstep
  have hstop := h.sound.stop
  have hfresh := h.sound.fresh
  obtain ⟨-, hasked, hbuf, hbegun, hstart, hunlock⟩ := h
  cases step_cases hstep with
  | thread k hthread =>
      cases hthread with
      | take hpc hmtx => exact .inl ⟨hsound, hasked, hbuf, rfl, by simp, by simp⟩
      | found hpc hfound => exact .inl ⟨hsound, hasked, hbuf, rfl, by simp, by simp⟩
      | sleep hpc hnil => exact absurd hnil hbuf
      | exit hpc hneg => omega
      | stay hpc hpos => exact .inl ⟨hsound, hasked, hbuf, rfl, by simp, by simp⟩
      | reset hpc => exact .inr (by simp [hasked])
      | start hpc => exact absurd hpc hstart
      | unlock hpc => exact absurd hpc hunlock
      | _ => simp_all [Pc.begun]
  | user huser =>
      cases huser with
      | assign b hpc => exact absurd (hfresh (by rw [hpc]; rfl)) hbuf
      | flushStop k hpc =>
          exact .inl ⟨hsound, by simp [hasked], hbuf, hbegun, hstart, hunlock⟩
      | writeNotify hpc | flushNotify k hpc =>
          left
          rcases notify_cases s with heq | ⟨hasleep, heq⟩
          · rw [heq] at hsound ⊢
            exact ⟨hsound, hasked, hbuf, hbegun, hstart, hunlock⟩
          · rw [heq] at hsound ⊢
            exact ⟨hsound, hasked, hbuf, rfl, by simp, by simp⟩
      | _ => exact .inl ⟨hsound, hasked, hbuf, hbegun, hstart, hunlock⟩
  | wake hpc => exact .inl ⟨hsound, hasked, hbuf, rfl, by simp, by simp⟩
  | resume hresuming =>
      left
      rcases notify_cases s with heq | ⟨hasleep, heq⟩
      · rw [heq] at hsound ⊢
        exact ⟨hsound, hasked, hbuf, hbegun, hstart, hunlock⟩
      · rw [heq] at hsound ⊢
        exact ⟨hsound, hasked, hbuf, rfl, by simp, by simp⟩
  | _ => exact .inl ⟨hsound, hasked, hbuf, hbegun, hstart, hunlock⟩

end Libsmu.WriteThread
