import Libsmu.OutputSupply

/-!
# What a Flush Leaves Behind

Samples written to a channel wait in three places: the buffer `m_out_samples_buf`, which is
the write thread's to clear, the queue `m_out_samples_q` and the look-ahead `m_next_output`.
`flush` empties the queue itself, and asks the write thread to drop the buffer. A thread that
is in its loop does so; a thread that has not taken the buffer up yet, or does not exist yet,
does not. The look-ahead stays.

The samples `encode_out` repeats are not new ones: `taken` is what it takes from the look-ahead
or the queue.

## Main results

* `mem_held_of_run`: whatever is held after a schedule was held before it or written in it.
* `discards_iff`: after a flush only samples written since are taken, and the counter is the
  number of samples still to come, exactly when the flush found no look-ahead and no buffer
  that was not taken up.
* `lookahead_survives`: the look-ahead of a run is the first sample of the next one, flush or
  no flush.
-/

namespace Libsmu.OutputSupply

variable {α : Type*} {cap S : ℕ}

/-- The sample `encode_out` takes as a new one; it takes none when it repeats the previous
sample or the channel floats. -/
def State.taken (s : State α cap) : Act α → Option α
  | .encode _ =>
      if 0 < s.left ∧ (s.m_sample_count = 0 ∨ s.m_out_sampleno ≤ s.m_sample_count) ∧
          s.chan.m_mode.sourcing ∧
          (s.m_sample_count = 0 ∨ s.chan.m_out_samples_avail > 0) then
        s.chan.takeNext.map Prod.fst
      else none
  | _ => none

/-- All samples the channel holds. -/
def State.held (s : State α cap) : List α :=
  s.chan.unused ++ s.rest ++ s.m_out_samples_buf

/-- A sample the step is given by the user. -/
def Act.gives (a : Act α) (x : α) : Prop :=
  ∃ buf cyclic, a = .write buf cyclic ∧ x ∈ buf

/-- **Nothing old is taken**: every new sample that is taken after some schedule was written
in the schedule. -/
def Discards (S : ℕ) (t : State α cap) : Prop :=
  ∀ as v a x, (machine α S cap).run t as = some v → v.taken a = some x → ∃ b ∈ as, b.gives x

variable {s t : State α cap} {a : Act α} {x : α}

theorem mem_held_iff :
    x ∈ s.held ↔ x ∈ s.chan.unused ∨ x ∈ s.rest ∨ x ∈ s.m_out_samples_buf := by
  rw [State.held, List.mem_append, List.mem_append, or_assoc]

/-! ### Where samples come from -/

/-- What is taken as a new sample is held, and is what the position carries. -/
theorem mem_held_of_taken (h : s.taken a = some x) : x ∈ s.held := by
  cases a with
  | encode completes =>
      rw [State.taken] at h
      split at h
      · obtain ⟨⟨y, q⟩, htake, rfl⟩ := Option.map_eq_some_iff.mp h
        rw [mem_held_iff, OutChannel.unused_of_takeNext htake]
        exact .inl List.mem_cons_self
      · cases h
  | _ => cases h

/-- `encode_out` brings no sample into the channel. -/
theorem mem_unused_of_encode_sample {N : ℕ} {peek : Bool} {c c' : OutChannel α cap}
    {val : Option α} (h : c.encode_sample N peek = .done val c') (hx : x ∈ c'.unused) :
    x ∈ c.unused := by
  rw [OutChannel.encode_sample] at h
  split at h
  · split at h
    · split at h
      · rename_i y q htake
        cases h
        rw [OutChannel.unused_of_takeNext htake]
        cases peek with
        | true => exact hx
        | false => exact List.mem_cons_of_mem y hx
      · cases h
    · split at h <;> cases h
      exact hx
  · cases h
    exact hx

/-- Of the samples on their way to `encode_out` a flush leaves the look-ahead. -/
theorem unused_flushed (s : State α cap) :
    s.flushed.chan.unused = s.chan.m_next_output.toList := by
  rw [State.flushed, OutChannel.unused]
  cases s.thread <;> exact List.append_nil _

/-- A flush drops the whole buffer or none of it. -/
theorem rest_flushed (s : State α cap) :
    s.flushed.rest = s.flushed.m_out_samples_buf ∧
      s.flushed.m_out_samples_buf ⊆ s.m_out_samples_buf := by
  rw [State.flushed, State.rest]
  cases hthread : s.thread with
  | absent | waiting =>
      simp only
      exact ⟨trivial, List.Subset.refl _⟩
  | pushing rest | paused rest => exact ⟨rfl, List.nil_subset _⟩

theorem mem_held_of_flush (hstep : s.flush = some t) (hx : x ∈ t.held) : x ∈ s.held := by
  rw [State.flush] at hstep
  split at hstep
  · obtain rfl := Option.some.inj hstep
    obtain ⟨hrest, hbuf⟩ := rest_flushed s
    rw [mem_held_iff, hrest, or_self, unused_flushed] at hx
    rw [mem_held_iff]
    exact hx.imp (List.mem_append_left _) fun h => .inr (hbuf h)
  · cases hstep

theorem mem_held_of_flushCyclic (hstep : s.flushCyclic = some t) (hx : x ∈ t.held) :
    x ∈ s.held := by
  rw [State.flushCyclic] at hstep
  split at hstep
  · exact mem_held_of_flush hstep hx
  · obtain rfl := Option.some.inj hstep
    exact hx

/-- The write thread moves samples from the buffer to the queue. -/
theorem mem_held_of_threadStep (hstep : threadStep s a = some t) (hx : x ∈ t.held) :
    x ∈ s.held := by
  rw [mem_held_iff] at hx ⊢
  cases a with
  | take =>
      simp only [threadStep] at hstep
      split at hstep
      · rename_i y ys hthread hbuf
        obtain rfl := Option.some.inj hstep
        simp only [State.rest, hthread, ← hbuf] at hx ⊢
        exact hx
      · cases hstep
  | push k =>
      simp only [threadStep] at hstep
      split at hstep
      · rename_i rest hthread
        split at hstep
        · obtain ⟨q, hq, rfl⟩ := Option.map_eq_some_iff.mp hstep
          obtain ⟨-, hitems⟩ := BoundedQueue.pushAll_eq_some_iff.mp hq
          have hrest : State.rest { s with
              chan := { s.chan with m_out_samples_q := q }
              thread :=
                if s.m_out_samples_stop = 2 then .paused (rest.drop k)
                else .pushing (rest.drop k) } = rest.drop k := by
            by_cases hstop : s.m_out_samples_stop = 2
            · rw [if_pos hstop, State.rest]
            · rw [if_neg hstop, State.rest]
          rw [hrest] at hx
          simp only [State.rest, hthread, OutChannel.unused, hitems, List.mem_append] at hx ⊢
          rcases hx with (hnext | hq | hpushed) | hunpushed | hbuf
          · exact .inl (.inl hnext)
          · exact .inl (.inr hq)
          · exact .inr (.inl (List.mem_of_mem_take hpushed))
          · exact .inr (.inl (List.mem_of_mem_drop hunpushed))
          · exact .inr (.inr hbuf)
        · cases hstep
      · cases hstep
  | finish =>
      simp only [threadStep] at hstep
      split at hstep
      · rename_i hthread
        split at hstep
        · obtain rfl := Option.some.inj hstep
          simp only [State.rest, hthread, OutChannel.unused] at hx ⊢
          rcases hx with hunused | hbuf | hbuf
          · exact .inl hunused
          · exact .inr (.inr hbuf)
          · exact .inr (.inr hbuf)
        · obtain rfl := Option.some.inj hstep
          simp only [State.rest] at hx
          exact .inl (hx.resolve_right (by simp))
      · cases hstep
  | resume =>
      simp only [threadStep] at hstep
      split at hstep
      · rename_i rest hthread
        split at hstep
        · obtain rfl := Option.some.inj hstep
          simp only [State.rest, hthread] at hx ⊢
          exact hx
        · cases hstep
      · cases hstep
  | _ => cases hstep

/-- Filling transfers brings no sample into the channel. -/
theorem mem_held_of_fillStep (S : ℕ) (hstep : fillStep S s a = some t) (hx : x ∈ t.held) :
    x ∈ s.held := by
  rw [mem_held_iff] at hx ⊢
  cases a with
  | encode completes =>
      simp only [fillStep] at hstep
      split at hstep
      · split at hstep
        · split at hstep
          · rename_i val c' hdone
            have hsub := mem_unused_of_encode_sample (x := x) hdone
            split at hstep <;> obtain rfl := Option.some.inj hstep <;> exact hx.imp hsub id
          · obtain rfl := Option.some.inj hstep
            exact hx
          · cases hstep
        · obtain rfl := Option.some.inj hstep
          exact hx
      · cases hstep
  | fill | cut =>
      simp only [fillStep] at hstep
      split at hstep
      · obtain rfl := Option.some.inj hstep
        exact hx
      · cases hstep
  | _ => cases hstep

/-- **The step lemma**: only a `write` brings samples into the channel, and only its own. -/
theorem mem_held_of_step (hstep : (machine α S cap).step s a = some t) (hx : x ∈ t.held) :
    x ∈ s.held ∨ a.gives x := by
  cases a with
  | write buf cyclic =>
      obtain ⟨u, hu, hstep⟩ := Option.bind_eq_some_iff.mp hstep
      split at hstep
      · obtain rfl := Option.some.inj hstep
        have hunused := mem_held_of_flushCyclic (x := x) hu
        rw [mem_held_iff] at hx hunused
        rcases hx with hunu | hrest | hbuf
        · exact .inl (hunused (.inl hunu))
        · simp only [State.rest] at hrest hunused
          cases hthread : u.thread <;> simp only [hthread] at hrest hunused
          · exact .inr ⟨buf, cyclic, rfl, hrest⟩
          · exact .inr ⟨buf, cyclic, rfl, hrest⟩
          · exact .inl (hunused (.inr (.inl hrest)))
          · exact .inl (hunused (.inr (.inl hrest)))
        · exact .inr ⟨buf, cyclic, rfl, hbuf⟩
      · cases hstep
  | writeTimeout => exact .inl (mem_held_of_flushCyclic hstep hx)
  | flush => exact .inl (mem_held_of_flush hstep hx)
  | take => exact .inl (mem_held_of_threadStep (a := .take) hstep hx)
  | push k => exact .inl (mem_held_of_threadStep (a := .push k) hstep hx)
  | finish => exact .inl (mem_held_of_threadStep (a := .finish) hstep hx)
  | resume => exact .inl (mem_held_of_threadStep (a := .resume) hstep hx)
  | set_mode m | off =>
      obtain rfl := Option.some.inj hstep
      exact .inl hx
  | run samples =>
      simp only [machine] at hstep
      split at hstep
      · obtain rfl := Option.some.inj hstep
        refine .inl ?_
        rw [mem_held_iff] at hx ⊢
        simp only [State.rest] at hx ⊢
        cases hthread : s.thread <;> simp only [hthread, WritePc.start] at hx ⊢ <;> exact hx
      · cases hstep
  | fill => exact .inl (mem_held_of_fillStep S (a := .fill) hstep hx)
  | encode completes => exact .inl (mem_held_of_fillStep S (a := .encode completes) hstep hx)
  | cut => exact .inl (mem_held_of_fillStep S (a := .cut) hstep hx)

/-- **The run lemma**: what is held after a schedule was held before it or written in it. -/
theorem mem_held_of_run {as : List (Act α)} (hrun : (machine α S cap).run s as = some t)
    (hx : x ∈ t.held) : x ∈ s.held ∨ ∃ b ∈ as, b.gives x := by
  refine Machine.invariant_of_history
    (fun as t => x ∈ t.held → x ∈ s.held ∨ ∃ b ∈ as, b.gives x) .inl ?_ hrun hx
  intro as u b v _ hinv hstep hv
  rcases mem_held_of_step hstep hv with hu | hb
  · refine (hinv hu).imp id ?_
    rintro ⟨c, hc, hgives⟩
    exact ⟨c, List.mem_append_left [b] hc, hgives⟩
  · exact .inr ⟨b, List.mem_append_right as List.mem_cons_self, hb⟩

/-! ### Flushing -/

/-- **What a flush leaves**: the look-ahead, and a buffer that was not taken up. -/
theorem held_of_flush (hflush : s.flush = some t) :
    t.chan.m_out_samples_avail = 0 ∧ (LeavesNothing s ↔ t.toCome = 0) ∧
      (LeavesNothing s → t.held = []) := by
  rw [State.flush] at hflush
  split at hflush
  · obtain rfl := Option.some.inj hflush
    simp only [LeavesNothing, State.flushed, State.toCome, State.held, State.rest,
      OutChannel.unused]
    cases hthread : s.thread <;> cases hnext : s.chan.m_next_output <;>
      simp
  · cases hflush

/-- **A flush discards.** After it nothing but samples written since is taken, and the
counter is the number of samples still to come, exactly when the flush found no look-ahead and
no buffer that the write thread had not taken up. -/
theorem discards_iff (hflush : s.flush = some t) :
    (Discards S t ∧ t.chan.m_out_samples_avail = t.toCome) ↔ LeavesNothing s := by
  obtain ⟨havail, hcome, hheld⟩ := held_of_flush hflush
  constructor
  · rintro ⟨-, heq⟩
    exact hcome.mpr (by omega)
  · intro hnothing
    refine ⟨?_, havail.trans (hcome.mp hnothing).symm⟩
    intro as v a x hrun htaken
    refine (mem_held_of_run hrun (mem_held_of_taken htaken)).resolve_left ?_
    rw [hheld hnothing]
    exact List.not_mem_nil

/-- A flush that finds the write thread pushing leaves nothing. -/
theorem discards_iff_pushing : ∃ s t : State ℕ 1000,
    (machine ℕ 256 1000).run (.init ℕ 1000 .SVMI)
        [.write [1, 2] false, .run 0, .take, .push 1] = some s ∧ s.flush = some t ∧
      Discards 256 t ∧ t.chan.m_out_samples_avail = t.toCome := by
  have hout : ((machine ℕ 256 1000).run (.init ℕ 1000 .SVMI)
      [.write [1, 2] false, .run 0, .take, .push 1]).map
        (fun s => (s.left, s.chan.m_next_output, s.thread)) = some (0, none, .pushing [2]) := by
    decide +kernel
  obtain ⟨s, hs, hout⟩ := Option.map_eq_some_iff.mp hout
  obtain ⟨hleft, hout⟩ := Prod.mk.inj hout
  obtain ⟨hnext, hthread⟩ := Prod.mk.inj hout
  have hflush : s.flush = some s.flushed := if_pos hleft
  refine ⟨s, s.flushed, hs, hflush, (discards_iff hflush).mpr ⟨hnext, ?_⟩⟩
  rw [hthread]
  trivial

/-- Eleven samples are written and a run of ten looks ahead at the eleventh. -/
def lookedAhead : List (Act ℕ) :=
  [.write (List.range 11) false, .run 10, .take, .push 11, .finish, .fill] ++
    List.replicate 256 (.encode true) ++ [.off]

/-- **The look-ahead survives.** After a flush a run without any `write` takes the eleventh
sample. -/
theorem lookahead_survives : ∃ s t : State ℕ 1000,
    (machine ℕ 256 1000).run (.init ℕ 1000 .SVMI) lookedAhead = some s ∧ s.flush = some t ∧
      ¬(Discards 256 t ∧ t.chan.m_out_samples_avail = t.toCome) := by
  have hout : (((machine ℕ 256 1000).run (.init ℕ 1000 .SVMI) lookedAhead).bind fun s =>
      s.flush.bind fun t => ((machine ℕ 256 1000).run t [.run 0, .fill]).map fun v =>
        v.taken (.encode true)) = some (some 10) := by decide +kernel
  obtain ⟨s, hs, hout⟩ := Option.bind_eq_some_iff.mp hout
  obtain ⟨t, ht, hout⟩ := Option.bind_eq_some_iff.mp hout
  obtain ⟨v, hv, htaken⟩ := Option.map_eq_some_iff.mp hout
  refine ⟨s, t, hs, ht, ?_⟩
  rintro ⟨hdiscards, -⟩
  obtain ⟨b, hb, buf, cyclic, rfl, -⟩ := hdiscards _ v _ 10 hv htaken
  simp at hb

end Libsmu.OutputSupply
