import Libsmu.WriteThread
import Mathlib.Data.List.Flatten

/-!
# Pausing and Resuming the Write Thread

The samples of a channel on their way: taken from the queue, queued, and of the buffer still
to be pushed. Put together they are what `write` was called with, one buffer after the other
and a cyclic one over and over (`Lossless`).

After each `q.push` the write thread reads `m_out_samples_stop` twice, first to see whether it
is 2 and it has to pause, and then whether it is anything else than 0 and it has to stop. A
pause that falls between the two is taken for a stop.

## Main results

* `lossless_of_seen`: as long as no pause falls between the two reads before the last turn of
  the loop, no sample is lost, repeated or out of order.
* `not_lossless_of_missed`: one that does loses the rest of the buffer.
* `pause_taken_for_stop`: the second sample of a buffer is lost.
-/

namespace Libsmu.WriteThread

variable {α : Type*} {cap : ℕ}

/-- The buffers one after the other, cyclic ones `n` times over. -/
def unroll (n : ℕ) (bs : List (Buffer α)) : List α :=
  bs.flatMap fun b => if b.cyclic then (List.replicate n b.samples).flatten else b.samples

theorem unroll_append (n : ℕ) (bs cs : List (Buffer α)) :
    unroll n (bs ++ cs) = unroll n bs ++ unroll n cs :=
  List.flatMap_append

theorem unroll_singleton (n : ℕ) (b : Buffer α) :
    unroll n [b] = if b.cyclic then (List.replicate n b.samples).flatten else b.samples :=
  List.flatMap_singleton _ b

/-- Without cyclic buffers the number of rounds does not matter. -/
theorem unroll_congr {bs : List (Buffer α)} (h : ∀ b ∈ bs, b.cyclic = false) (n m : ℕ) :
    unroll n bs = unroll m bs := by
  rw [unroll]
  refine List.flatMap_congr ?_
  intro b hb
  rw [h b hb]
  rfl

/-- One more round of a cyclic buffer. -/
theorem unroll_succ {bs : List (Buffer α)} (h : ∀ b ∈ bs, b.cyclic = false) (n : ℕ)
    (xs : List α) :
    unroll (n + 1) (bs ++ [⟨xs, true⟩]) = unroll n (bs ++ [⟨xs, true⟩]) ++ xs := by
  rw [unroll_append, unroll_append, unroll_congr h (n + 1) n, unroll_singleton,
    unroll_singleton]
  simp only [if_true, List.replicate_succ', List.flatten_append, List.flatten_singleton,
    List.append_assoc]

/-- The samples of the buffer that the write thread has not pushed yet. -/
def State.pending (s : State α cap) : List α :=
  if s.thread.begun then s.m_out_samples_buf.drop s.it else s.m_out_samples_buf

/-- **Lossless**: the samples taken, queued and pending are those written, in order, and a
cyclic buffer is still there to be repeated. -/
structure Lossless (s : State α cap) : Prop where
  stream : ∃ n, s.popped ++ s.m_out_samples_q.items ++ s.pending = unroll n s.written
  kept : ∀ bs b, s.written = bs ++ [b] → b.cyclic = true → s.m_out_samples_buf = b.samples

/-- The samples taken are the first of those written. -/
theorem Lossless.popped_prefix {s : State α cap} (h : Lossless s) :
    ∃ n, s.popped <+: unroll n s.written := by
  obtain ⟨n, hn⟩ := h.stream
  exact ⟨n, s.m_out_samples_q.items ++ s.pending, by rw [← hn, List.append_assoc]⟩

/-- Nothing is flushed: the user does not call `flush`, nor `write` after a cyclic buffer. -/
def Unflushed (s : State α cap) : Act α → Prop
  | .flush => False
  | .write _ => s.m_out_samples_buf_cyclic = false
  | _ => True

/-- The second read of `m_out_samples_stop` does not find a pause that the first has missed,
unless the buffer is pushed and not cyclic. -/
def Seen (s : State α cap) : Act α → Prop
  | .thread _ =>
      s.thread = .stopTest → s.m_out_samples_stop = 2 →
        s.it = s.m_out_samples_buf.length ∧ s.m_out_samples_buf_cyclic = false
  | _ => True

instance (s : State α cap) (a : Act α) : Decidable (Unflushed s a) :=
  match a with
  | .flush => isFalse id
  | .write _ => inferInstanceAs (Decidable (_ = _))
  | .thread _ | .wake | .user | .timeout | .pop | .off | .run | .resume => isTrue trivial

instance (s : State α cap) (a : Act α) : Decidable (Seen s a) :=
  match a with
  | .thread _ => inferInstanceAs (Decidable (_ → _ → _))
  | .flush | .write _ | .wake | .user | .timeout | .pop | .off | .run | .resume =>
      isTrue trivial

/-! ### The invariant -/

/-- The user is in `flush`. -/
def UserPc.flushing : UserPc α → Bool
  | .flushState _ | .flushStop _ | .flushNotify _ | .flushLock _ | .consume _ | .zeroAvail _
  | .flushUnlock _ => true
  | _ => false

/-- The user is in `write`, with the buffer still to be handed over. -/
def UserPc.writing : UserPc α → Bool
  | .waiting _ | .bump _ | .writeLock _ | .assign _ => true
  | _ => false

/-- **On the way**: no sample is lost so far. Only the last buffer can be cyclic, and the
write thread leaves only a buffer that is pushed and not cyclic. -/
structure OnTheWay (s : State α cap) : Prop where
  sound : Sound s
  stop : s.m_out_samples_stop = 0 ∨ s.m_out_samples_stop = 2
  user : s.user.flushing = false
  plain : s.user.writing = true → s.m_out_samples_buf_cyclic = false
  again : s.thread = .again → s.it = s.m_out_samples_buf.length
  finish : s.thread = .finish →
    s.it = s.m_out_samples_buf.length ∧ s.m_out_samples_buf_cyclic = false
  stream : ∃ n, s.popped ++ s.m_out_samples_q.items ++ s.pending = unroll n s.written
  last : (∃ bs, (∀ b ∈ bs, b.cyclic = false) ∧ s.m_out_samples_buf_cyclic = true ∧
      s.written = bs ++ [⟨s.m_out_samples_buf, true⟩]) ∨
    s.m_out_samples_buf_cyclic = false ∧ ∀ b ∈ s.written, b.cyclic = false

theorem OnTheWay.init : OnTheWay (.init α cap) where
  sound := .init
  stop := .inl rfl
  user := rfl
  plain h := nomatch h
  again h := nomatch h
  finish h := nomatch h
  stream := ⟨0, rfl⟩
  last := .inr ⟨rfl, fun _ hb => (nomatch hb)⟩

theorem OnTheWay.lossless {s : State α cap} (h : OnTheWay s) : Lossless s where
  stream := h.stream
  kept bs b hwritten hcyclic := by
    rcases h.last with ⟨cs, -, -, hlast⟩ | ⟨-, hplain⟩
    · rw [hwritten] at hlast
      obtain ⟨-, rfl⟩ := List.append_inj' hlast rfl |>.imp_right List.singleton_inj.mp
      rfl
    · have hb := hplain b (by rw [hwritten]; simp)
      rw [hcyclic] at hb
      exact nomatch hb

/-- A step of the write thread that leaves the buffer and its flags as they are, and what is
pending as well, since the buffer stays begun or not. -/
theorem OnTheWay.goto {s : State α cap} (h : OnTheWay s) {pc : Pc} (mtx : Option Owner)
    (hsound : Sound { s with m_out_samples_mtx := mtx, thread := pc })
    (hbegun : s.thread.begun = pc.begun) (hpc : pc ≠ .again ∧ pc ≠ .finish) :
    OnTheWay { s with m_out_samples_mtx := mtx, thread := pc } where
  sound := hsound
  stop := h.stop
  user := h.user
  plain := h.plain
  again hagain := absurd hagain hpc.1
  finish hfinish := absurd hfinish hpc.2
  stream := by
    have hpending : { s with m_out_samples_mtx := mtx, thread := pc }.pending = s.pending := by
      rw [State.pending, State.pending, hbegun]
    rw [hpending]
    exact h.stream
  last := h.last

/-- The write thread comes to leave a buffer that is pushed and not cyclic. -/
theorem OnTheWay.gotoFinish {s : State α cap} (h : OnTheWay s)
    (hsound : Sound { s with thread := .finish }) (hbegun : s.thread.begun = true)
    (hdone : s.it = s.m_out_samples_buf.length ∧ s.m_out_samples_buf_cyclic = false) :
    OnTheWay { s with thread := .finish } where
  sound := hsound
  stop := h.stop
  user := h.user
  plain := h.plain
  again := by simp
  finish _ := hdone
  stream := by
    have hpending : { s with thread := .finish }.pending = s.pending := by
      rw [State.pending, State.pending, hbegun]
      rfl
    rw [hpending]
    exact h.stream
  last := h.last

/-- The write thread keeps every sample, if it has not missed a pause. -/
theorem OnTheWay.threadStep {s t : State α cap} (h : OnTheWay s) {k : ℕ}
    (hseen : Seen s (.thread k)) (hstep : ThreadStep s t) : OnTheWay t := by
  have hsound := h.sound.threadStep hstep
  cases hstep with
  | take hpc hmtx =>
      refine h.goto _ hsound ?_ (by decide)
      rcases hpc with hpc | hpc <;> rw [hpc] <;> rfl
  | found hpc hfound =>
      refine h.goto s.m_out_samples_mtx hsound ?_ (by decide)
      rw [hpc]
      rfl
  | sleep hpc hbuf =>
      refine h.goto _ hsound ?_ (by decide)
      rw [hpc]
      rfl
  | exit hpc hexit =>
      have hstop := h.sound.stop
      omega
  | stay hpc hstay =>
      refine h.goto s.m_out_samples_mtx hsound ?_ (by decide)
      rw [hpc]
      rfl
  | reset hpc =>
      refine ⟨hsound, .inl rfl, h.user, h.plain, by simp, by simp, ?_, h.last⟩
      have hstream := h.stream
      simpa [State.pending, Pc.begun, hpc] using hstream
  | start hpc =>
      refine ⟨hsound, h.stop, h.user, h.plain, by simp, by simp, ?_, h.last⟩
      have hstream := h.stream
      simpa [State.pending, Pc.begun, hpc] using hstream
  | push hpc k q hit hk hq =>
      refine ⟨hsound, h.stop, h.user, h.plain, by simp, by simp, ?_, h.last⟩
      obtain ⟨n, hn⟩ := h.stream
      refine ⟨n, ?_⟩
      have hcut : (s.m_out_samples_buf.drop s.it).take k ++ s.m_out_samples_buf.drop (s.it + k) =
          s.m_out_samples_buf.drop s.it := by
        rw [← List.drop_drop]
        exact List.take_append_drop k _
      rw [← hn]
      simp only [State.pending, Pc.begun, hpc, if_true, hq, List.append_assoc, hcut]
  | pushed hpc hit =>
      refine ⟨hsound, h.stop, h.user, h.plain, fun _ => hit, by simp, ?_, h.last⟩
      have hstream := h.stream
      simpa [State.pending, Pc.begun, hpc] using hstream
  | pause hpc hstop =>
      refine h.goto s.m_out_samples_mtx hsound ?_ (by decide)
      rw [hpc]
      rfl
  | unpaused hpc hstop =>
      refine h.goto s.m_out_samples_mtx hsound ?_ (by decide)
      rw [hpc]
      rfl
  | goOn hpc hstop =>
      refine h.goto s.m_out_samples_mtx hsound ?_ (by decide)
      rw [hpc]
      rfl
  | stopped hpc hstop =>
      -- the only stop there is is a pause, which was not missed too early
      exact h.gotoFinish hsound (by rw [hpc]; rfl) (hseen hpc (h.stop.resolve_left hstop))
  | turn hpc hstop =>
      refine h.goto s.m_out_samples_mtx hsound ?_ (by decide)
      rw [hpc]
      rfl
  | wrap hpc hcyclic n =>
      refine ⟨hsound, h.stop, h.user, h.plain, by simp, by simp, ?_, h.last⟩
      -- the buffer counts once more, and is pending again
      obtain ⟨m, hm⟩ := h.stream
      rcases h.last with ⟨bs, hbs, -, hwritten⟩ | ⟨hplain, -⟩
      · refine ⟨m + 1, ?_⟩
        have hdone : s.pending = [] := by
          simp [State.pending, Pc.begun, hpc, h.again hpc]
        rw [hdone, List.append_nil] at hm
        simp only [State.pending, Pc.begun, Bool.false_eq_true, if_false]
        rw [hwritten, unroll_succ hbs, ← hwritten, hm]
      · exact absurd hcyclic (by simp [hplain])
  | done hpc hcyclic =>
      exact h.gotoFinish hsound (by rw [hpc]; rfl) ⟨h.again hpc, hcyclic⟩
  | wipe hpc hwipe =>
      obtain ⟨hit, hcyclic⟩ := h.finish hpc
      refine ⟨hsound, h.stop, h.user, h.plain, by simp, by simp, ?_, ?_⟩
      · obtain ⟨n, hn⟩ := h.stream
        have hdone : s.pending = [] := by
          simp [State.pending, Pc.begun, hpc, hit]
        rw [hdone] at hn
        exact ⟨n, hn⟩
      · rcases h.last with ⟨-, -, htrue, -⟩ | hplain
        · exact absurd htrue (by simp [hcyclic])
        · exact .inr hplain
  | keep hpc hstop hcyclic => exact absurd hcyclic (by simp [(h.finish hpc).2])
  | unlock hpc =>
      refine h.goto _ hsound ?_ (by decide)
      rw [hpc]
      rfl

theorem OnTheWay.woken {s : State α cap} (h : OnTheWay s) (hpc : s.thread = .asleep) :
    OnTheWay { s with thread := .woken } := by
  refine h.goto s.m_out_samples_mtx (h.sound.woken hpc) ?_ (by decide)
  rw [hpc]
  rfl

theorem OnTheWay.notify {s : State α cap} (h : OnTheWay s) : OnTheWay s.notify := by
  rcases notify_cases s with heq | ⟨hpc, heq⟩
  · rw [heq]
    exact h
  · rw [heq]
    exact h.woken hpc

/-- The user thread goes on without touching the buffer. -/
theorem OnTheWay.userGoto {s t : State α cap} (h : OnTheWay s) (hsound : Sound t)
    {user : UserPc α} {n : ℕ} {mtx : Option Owner}
    (ht : t = { s with user := user, m_out_samples_avail := n, m_out_samples_mtx := mtx })
    (hflushing : user.flushing = false)
    (hplain : user.writing = true → s.m_out_samples_buf_cyclic = false) : OnTheWay t := by
  subst ht
  exact ⟨hsound, h.stop, hflushing, hplain, h.again, h.finish, h.stream, h.last⟩

/-- **A buffer is handed over.** It is all pending, and the first round of it counts. -/
theorem OnTheWay.assign {s : State α cap} (h : OnTheWay s) {b : Buffer α}
    (hpc : s.user = .assign b) :
    OnTheWay { s with
      m_out_samples_buf := b.samples
      m_out_samples_buf_cyclic := b.cyclic
      written := s.written ++ [b]
      user := .writeUnlock } := by
  have hbusy := h.sound.not_busy (by rw [hpc]; rfl)
  have hbegun : s.thread.begun = false := by
    cases hthread : s.thread <;> simp_all [Pc.busy, Pc.begun]
  have hempty := h.sound.fresh (by rw [hpc]; rfl)
  have hplain : ∀ b ∈ s.written, b.cyclic = false := by
    rcases h.last with ⟨-, -, htrue, -⟩ | ⟨-, hplain⟩
    · exact absurd htrue (by simp [h.plain (by rw [hpc]; rfl)])
    · exact hplain
  refine ⟨h.sound.userStep (.assign b hpc), h.stop, rfl, by simp [UserPc.writing],
    ?_, ?_, ?_, ?_⟩
  · intro hagain
    rw [show s.thread = .again from hagain] at hbegun
    exact absurd hbegun (by decide)
  · intro hfinish
    rw [show s.thread = .finish from hfinish] at hbegun
    exact absurd hbegun (by decide)
  · obtain ⟨n, hn⟩ := h.stream
    refine ⟨1, ?_⟩
    have hdone : s.pending = [] := by
      simp [State.pending, hempty]
    have hround : unroll 1 [b] = b.samples := by
      rw [unroll_singleton]
      split
      · simp
      · rfl
    rw [hdone, List.append_nil] at hn
    rw [unroll_append, hround, unroll_congr hplain 1 n, ← hn]
    simp [State.pending, hbegun]
  · obtain ⟨samples, cyclic⟩ := b
    cases cyclic with
    | true => exact .inl ⟨s.written, hplain, rfl, rfl⟩
    | false =>
        refine .inr ⟨rfl, ?_⟩
        intro c hc
        rcases List.mem_append.mp hc with hc | hc
        · exact hplain c hc
        · rw [List.mem_singleton.mp hc]

theorem OnTheWay.userStep {s t : State α cap} (h : OnTheWay s) (hstep : UserStep s t) :
    OnTheWay t := by
  have hsound := h.sound.userStep hstep
  have huser := h.user
  cases hstep with
  | free b hpc hbuf =>
      exact h.userGoto hsound rfl rfl fun _ => h.plain (by rw [hpc]; rfl)
  | bump b hpc n => exact h.userGoto hsound rfl rfl fun _ => h.plain (by rw [hpc]; rfl)
  | writeLock b hpc hmtx =>
      exact h.userGoto hsound rfl rfl fun _ => h.plain (by rw [hpc]; rfl)
  | assign b hpc => exact h.assign hpc
  | writeUnlock hpc => exact h.userGoto hsound rfl rfl fun h => (nomatch h)
  | writeNotify hpc => exact h.notify.userGoto hsound rfl rfl fun h => (nomatch h)
  | flushState k hpc | flushStop k hpc | flushNotify k hpc | consume k hpc | zeroAvail k hpc =>
      rw [hpc] at huser
      exact nomatch huser
  | flushLock k hpc hmtx =>
      rw [hpc] at huser
      exact nomatch huser
  | flushed hpc =>
      rw [hpc] at huser
      exact nomatch huser
  | write b hpc =>
      rw [hpc] at huser
      exact nomatch huser

/-- **The step lemma.** -/
theorem OnTheWay.step {s t : State α cap} {a : Act α} (h : OnTheWay s)
    (hok : Unflushed s a ∧ Seen s a) (hstep : (machine α cap).step s a = some t) :
    OnTheWay t := by
  have hsound := h.sound.step hstep
  cases step_cases hstep with
  | thread k hthread => exact h.threadStep (k := k) hok.2 hthread
  | user huser => exact h.userStep huser
  | wake hpc => exact h.woken hpc
  | write b hpc hcyclic => exact h.userGoto hsound rfl rfl fun _ => hcyclic
  | writeFlush b hpc hcyclic =>
      rw [show s.m_out_samples_buf_cyclic = false from hok.1] at hcyclic
      exact nomatch hcyclic
  | flush hpc => exact hok.1.elim
  | timeout b hpc => exact h.userGoto hsound rfl rfl fun h => (nomatch h)
  | pop x q hstate hq =>
      refine ⟨hsound, h.stop, h.user, h.plain, h.again, h.finish, ?_, h.last⟩
      obtain ⟨n, hn⟩ := h.stream
      refine ⟨n, ?_⟩
      rw [← hn, hq]
      simp [State.pending]
  | off => exact ⟨hsound, .inr rfl, h.user, h.plain, h.again, h.finish, h.stream, h.last⟩
  | run resuming =>
      exact ⟨hsound, h.stop, h.user, h.plain, h.again, h.finish, h.stream, h.last⟩
  | resume hresuming =>
      have h := h.notify
      exact ⟨hsound, .inl rfl, h.user, h.plain, h.again, h.finish, h.stream, h.last⟩

/-! ### Whole runs -/

/-- **Nothing is lost under pause and resume** as long as no pause falls between the two reads
of `m_out_samples_stop` before the last turn of the loop: the samples taken are the first of
the written ones, and those queued and pending follow them. -/
theorem lossless_of_seen {as : List (Act α)} {s : State α cap}
    (hunflushed : (machine α cap).Meets Unflushed (.init α cap) as)
    (hseen : (machine α cap).Meets Seen (.init α cap) as)
    (hrun : (machine α cap).run (.init α cap) as = some s) :
    (∃ n, s.popped <+: unroll n s.written) ∧ Lossless s := by
  have hok : (machine α cap).Meets (fun s a => Unflushed s a ∧ Seen s a) (.init α cap) as :=
    hunflushed.and hseen
  have h : OnTheWay s := Machine.invariant_of_meets
    (fun _ _ _ hs hok hstep => OnTheWay.step hs hok hstep) OnTheWay.init hok hrun
  exact ⟨h.lossless.popped_prefix, h.lossless⟩

/-- Two samples are written for a queue of one, and the write thread is paused and resumed
after the first. -/
def pausedBetween : List (Act ℕ) :=
  [.write ⟨[1, 2], false⟩] ++ List.replicate 6 .user ++ List.replicate 6 (.thread 1) ++
    [.off, .thread 0, .pop, .run, .resume, .thread 0, .thread 1, .pop]

/-- Both samples arrive. -/
theorem lossless_of_seen_paused : ∃ s : State ℕ 1,
    (machine ℕ 1).run (.init ℕ 1) pausedBetween = some s ∧ s.popped = [1, 2] ∧ Lossless s := by
  have hrun : ((machine ℕ 1).run (.init ℕ 1) pausedBetween).map State.popped = some [1, 2] := by
    decide +kernel
  obtain ⟨s, hs, hpopped⟩ := Option.map_eq_some_iff.mp hrun
  exact ⟨s, hs, hpopped, (lossless_of_seen (by decide +kernel) (by decide +kernel) hs).2⟩

/-- The same with the pause between the two reads of `m_out_samples_stop`, and a third sample
written afterwards. -/
def pausedLate : List (Act ℕ) :=
  [.write ⟨[1, 2], false⟩] ++ List.replicate 6 .user ++ List.replicate 7 (.thread 1) ++
    [.off, .thread 0, .thread 0, .thread 0, .run, .resume, .pop, .write ⟨[3], false⟩] ++
    List.replicate 6 .user ++ List.replicate 6 (.thread 1) ++ [.pop]

/-- **A pause taken for a stop.** The write thread has pushed the first of two samples and
found no pause; `off` comes before it reads `m_out_samples_stop` again, and the rest of the
buffer is dropped. The samples taken are not the first of those written. -/
theorem pause_taken_for_stop : ∃ s : State ℕ 1,
    (machine ℕ 1).Meets Unflushed (.init ℕ 1) pausedLate ∧
      (machine ℕ 1).run (.init ℕ 1) pausedLate = some s ∧ s.popped = [1, 3] ∧
      (∀ n, unroll n s.written = [1, 2, 3]) ∧ ¬∃ n, s.popped <+: unroll n s.written := by
  have hrun : ((machine ℕ 1).run (.init ℕ 1) pausedLate).map
      (fun s => (s.popped, s.written)) =
        some ([1, 3], [⟨[1, 2], false⟩, ⟨[3], false⟩]) := by
    decide +kernel
  obtain ⟨s, hs, hout⟩ := Option.map_eq_some_iff.mp hrun
  obtain ⟨hpopped, hwritten⟩ := Prod.mk.inj hout
  have hunroll : ∀ n, unroll n s.written = [1, 2, 3] := by
    intro n
    rw [hwritten]
    rfl
  refine ⟨s, by decide +kernel, hs, hpopped, hunroll, ?_⟩
  rintro ⟨n, hprefix⟩
  rw [hpopped, hunroll] at hprefix
  exact absurd hprefix (by decide)

/-- **A missed pause loses samples**: two steps of the write thread later the buffer is gone,
with what was pending of it or still to be repeated. -/
theorem not_lossless_of_missed {s : State α cap} (h : OnTheWay s) (hpc : s.thread = .stopTest)
    (hstop : s.m_out_samples_stop = 2)
    (hmissed : ¬(s.it = s.m_out_samples_buf.length ∧ s.m_out_samples_buf_cyclic = false)) :
    ∃ t, (machine α cap).run s [.thread 0, .thread 0] = some t ∧ ¬Lossless t := by
  refine ⟨{ s with m_out_samples_buf := [], asked := false, thread := .unlock }, ?_, ?_⟩
  · simp [Machine.run_cons, machine, State.threadStep, hpc, hstop]
  · intro hlossless
    rcases h.last with ⟨bs, -, -, hwritten⟩ | ⟨hcyclic, hplain⟩
    · have hkept := hlossless.kept bs _ hwritten rfl
      exact h.sound.busy (by rw [hpc]; rfl) hkept.symm
    · obtain ⟨n, hn⟩ := h.stream
      obtain ⟨m, hm⟩ := hlossless.stream
      have hnone : s.pending = [] := by
        rw [unroll_congr hplain m n, ← hn] at hm
        exact (List.append_cancel_left hm).symm
      have hposition := h.sound.position (by rw [hpc]; rfl)
      simp only [State.pending, hpc, Pc.begun, if_true, List.drop_eq_nil_iff] at hnone
      exact hmissed ⟨Nat.le_antisymm hposition hnone, hcyclic⟩

end Libsmu.WriteThread
