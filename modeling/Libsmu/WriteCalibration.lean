import Libsmu.CalibrationReader
import Libsmu.DeviceControl
import Mathlib.Algebra.Field.Rat

/-!
# Writing the Calibration

`write_calibration` looks at the number of sections when the file has ended; only then the
EEPROM is written, and whether that works shows in what the call returns. By then `m_cal` has
changed.

## Main results

* `within_tables_iff`: the parser keeps within its tables, and refuses files that need more,
  exactly for the files that fit.
* `rejected_unchanged_iff`: a call that fails leaves `m_cal` alone exactly when it is
  `Harmless`.
-/

namespace Libsmu

variable {R : Type*}

/-! ### The call -/

/-- `EEPROM_VALID`. -/
def EEPROM_VALID : ℕ := 0x01ee02dd

/-- `EINVAL`. -/
def EINVAL : ℤ := 22

/-- `cal_file_name`, by what it names. -/
inductive CalFile
  | NULL
  | cannotOpen
  | file (fp : List Char)

/-- How a call ends. -/
structure Outcome (R : Type*) where
  ret : ℤ
  m_cal : StoredCal R
  /-- what the EEPROM is sent -/
  sent : Option (StoredCal R)
  /-- the entries that each section was computed from -/
  used : List (List (R × R))

/-- The part from `write_cal` on; the USB answers the transfer with `answer`. -/
def write_cal (answer : ℤ) (cal_records_no : ℕ) (m_cal : StoredCal R)
    (used : List (List (R × R))) : Outcome R :=
  if cal_records_no ≠ 8 then ⟨-EINVAL, m_cal, none, used⟩
  else
    let m_cal := { m_cal with eeprom_valid := EEPROM_VALID }
    ⟨if 0 < answer then 0 else -libusb_to_errno answer, m_cal, some m_cal, used⟩

/-- The end of the call returns zero when there are eight sections and the transfer works. -/
theorem ret_write_cal_eq_zero_iff {answer : ℤ} {cal_records_no : ℕ} {m_cal : StoredCal R}
    {used : List (List (R × R))} :
    (write_cal answer cal_records_no m_cal used).ret = 0 ↔ cal_records_no = 8 ∧ 0 ≤ answer := by
  rw [write_cal]
  split
  · rename_i hne
    exact iff_of_false (by simp only [EINVAL]; omega) fun h => hne h.1
  · rename_i heq
    have h8 : cal_records_no = 8 := not_not.mp heq
    simp only
    split
    · exact iff_of_true rfl ⟨h8, by omega⟩
    · rcases lt_or_ge answer 0 with hneg | hpos
      · have := libusb_to_errno_pos hneg
        exact iff_of_false (by omega) (by omega)
      · obtain rfl : answer = 0 := by omega
        exact iff_of_true rfl ⟨h8, le_rfl⟩

theorem used_write_cal (answer : ℤ) (cal_records_no : ℕ) (m_cal : StoredCal R)
    (used : List (List (R × R))) :
    (write_cal answer cal_records_no m_cal used).used = used := by
  rw [write_cal]
  split
  · rfl
  · rfl

/-- The entries of the sections are not touched behind the loops. -/
theorem entry_write_cal (answer : ℤ) (cal_records_no : ℕ) (m_cal : StoredCal R)
    (used : List (List (R × R))) (k : Fin 8) :
    (write_cal answer cal_records_no m_cal used).m_cal.entry k = m_cal.entry k := by
  rw [write_cal]
  split
  · rfl
  · rfl

section Arithmetic

variable [Zero R] [One R] [Add R] [Sub R] [Div R] [NatCast R] [LT R] [DecidableLT R]

/-- The calibration that `NULL` asks for. -/
def StoredCal.reset (m_cal : StoredCal R) : StoredCal R :=
  { m_cal with offset := fun _ => 0, gain_p := fun _ => 1, gain_n := fun _ => 1 }

/-- `write_calibration`; there is no outcome when an index leaves a table. -/
def write_calibration (number : List Char → R) (stack : (ℕ → R) × (ℕ → R)) (answer : ℤ)
    (cal_file_name : CalFile) (m_cal : StoredCal R) : Option (Outcome R) :=
  match cal_file_name with
  | .NULL => some (write_cal answer 8 m_cal.reset [])
  | .cannotOpen => some ⟨-1, m_cal, none, []⟩
  | .file fp =>
      ((reader number).run (Reader.start stack m_cal) (lines fp)).map fun t =>
        write_cal answer t.cal_records_no t.m_cal t.used

end Arithmetic

section Calls

variable [Zero R] [One R] [Add R] [Sub R] [Div R] [NatCast R] [LT R] [DecidableLT R]
variable (number : List Char → R) (stack : (ℕ → R) × (ℕ → R)) (m_cal : StoredCal R)

/-- **The parser keeps within its tables**, and ends with an error for a file that needs more,
exactly when the file fits. -/
theorem within_tables_iff (answer : ℤ) (fp : List Char) :
    (∃ out, write_calibration number stack answer (.file fp) m_cal = some out ∧
        (¬Fits (loopSections fp) → out.ret ≠ 0)) ↔ Fits (loopSections fp) := by
  rw [← reads_iff_fits number stack m_cal fp, write_calibration]
  constructor
  · rintro ⟨out, hout, -⟩
    obtain ⟨t, ht, -⟩ := Option.map_eq_some_iff.mp hout
    exact ⟨t, ht⟩
  · rintro ⟨t, ht⟩
    exact ⟨_, Option.map_eq_some_iff.mpr ⟨t, ht, rfl⟩, fun hnot => absurd ⟨t, ht⟩ hnot⟩

variable {number stack m_cal} in
/-- What a section was computed from gives its entry. -/
theorem entry_of_used {answer : ℤ} {fp : List Char} {out : Outcome R}
    (hout : write_calibration number stack answer (.file fp) m_cal = some out) {k : Fin 8}
    {first : R × R} {further : List (R × R)} (hused : out.used[k.val]? = some (first :: further)) :
    out.m_cal.entry k = sectionCal first further := by
  obtain ⟨t, ht, rfl⟩ := Option.map_eq_some_iff.mp hout
  rw [used_write_cal] at hused
  obtain ⟨first', further', hpairs, hentry⟩ := (Reader.stored_of_run ht).closed k _ hused
  obtain ⟨rfl, rfl⟩ := List.cons_eq_cons.mp hpairs
  exact (entry_write_cal _ _ _ _ k).trans hentry

/-! ### Calls that fail -/

/-- A call is harmless when it cannot open its file, when it restores the defaults and the
EEPROM takes them, or when its file fits the tables and has no section that is closed, or eight
of them and the EEPROM takes what they give. -/
def Harmless (answer : ℤ) : CalFile → Prop
  | .NULL => 0 ≤ answer
  | .cannotOpen => True
  | .file fp => Fits (loopSections fp) ∧ ((loopSections fp).closed = [] ∨
      ((loopSections fp).closed.length = 8 ∧ 0 ≤ answer))

/-- A reader that has closed no section has changed nothing. -/
theorem Reader.Stored.m_cal_eq {m_cal : StoredCal R} {t : Reader R} (h : t.Stored m_cal)
    (hzero : t.cal_records_no = 0) : t.m_cal = m_cal := by
  have hentry : ∀ k : Fin 8, t.m_cal.entry k = m_cal.entry k := fun k =>
    h.rest k (hzero ▸ Nat.zero_le k.val)
  refine StoredCal.ext h.valid (funext fun k => ?_) (funext fun k => ?_) (funext fun k => ?_)
  · exact congrArg SectionCal.offset (hentry k)
  · exact congrArg SectionCal.gain_p (hentry k)
  · exact congrArg SectionCal.gain_n (hentry k)

/-- A harmless call that fails leaves `m_cal` as it is. -/
theorem unchanged_of_harmless {answer : ℤ} {cal_file : CalFile} (h : Harmless answer cal_file)
    (m_cal : StoredCal R) :
    ∃ out, write_calibration number stack answer cal_file m_cal = some out ∧
      (out.ret ≠ 0 → out.m_cal = m_cal) := by
  cases cal_file with
  | NULL => exact ⟨_, rfl, fun hret => absurd (ret_write_cal_eq_zero_iff.mpr ⟨rfl, h⟩) hret⟩
  | cannotOpen => exact ⟨_, rfl, fun _ => rfl⟩
  | file fp =>
      obtain ⟨hfits, hclosed⟩ := h
      obtain ⟨t, ht⟩ := (reads_iff_fits number stack m_cal fp).mpr hfits
      have hreads := reads_of_run number stack m_cal ht
      refine ⟨_, Option.map_eq_some_iff.mpr ⟨t, ht, rfl⟩, fun hret => ?_⟩
      rcases hclosed with hnil | ⟨h8, hanswer⟩
      · have hzero : t.cal_records_no = 0 := by rw [hreads.count, hnil, List.length_nil]
        rw [write_cal, if_pos (by rw [hzero]; omega)]
        exact (Reader.stored_of_run ht).m_cal_eq hzero
      · exact absurd (ret_write_cal_eq_zero_iff.mpr ⟨hreads.count.trans h8, hanswer⟩) hret

/-- What is stored of the first section does not depend on what was there before. -/
theorem exists_entry_zero {fp : List Char} (hclosed : (loopSections fp).closed ≠ []) :
    ∃ c : SectionCal R, ∀ m_cal t,
      (reader number).run (Reader.start stack m_cal) (lines fp) = some t →
        t.m_cal.entry 0 = c := by
  by_cases hsome : ∃ m_cal t, (reader number).run (Reader.start stack m_cal) (lines fp) = some t
  · obtain ⟨m_cal, t, ht⟩ := hsome
    have hlen : 0 < t.used.length := by
      rw [← (reads_of_run number stack m_cal ht).used.length_eq]
      exact List.length_pos_of_ne_nil hclosed
    obtain ⟨first, further, hpairs, -⟩ :=
      (Reader.stored_of_run ht).closed 0 _ (List.getElem?_eq_getElem hlen)
    refine ⟨sectionCal first further, fun m_cal' u hu => ?_⟩
    obtain ⟨u', hu', hused, -⟩ := Reader.run_sameTables ht m_cal'
    obtain rfl := Option.some.inj (hu.symm.trans hu')
    obtain ⟨first', further', hpairs', hentry⟩ := (Reader.stored_of_run hu).closed 0
      t.used[0] (by rw [hused]; exact List.getElem?_eq_getElem hlen)
    obtain ⟨rfl, rfl⟩ := List.cons_eq_cons.mp (hpairs.symm.trans hpairs')
    exact hentry
  · exact ⟨⟨0, 0, 0⟩, fun m_cal t ht => absurd ⟨m_cal, t, ht⟩ hsome⟩

/-- A failing call that closes a section changes some calibration. -/
theorem exists_changed [Nontrivial R] {answer : ℤ} {fp : List Char}
    (hclosed : (loopSections fp).closed ≠ [])
    (hfails : ¬((loopSections fp).closed.length = 8 ∧ 0 ≤ answer)) :
    ∃ m_cal : StoredCal R, ∀ out,
      write_calibration number stack answer (.file fp) m_cal = some out →
        out.ret ≠ 0 ∧ out.m_cal ≠ m_cal := by
  obtain ⟨c, hc⟩ := exists_entry_zero number stack hclosed
  obtain ⟨x, hx⟩ := exists_ne c.offset
  refine ⟨⟨0, fun _ => x, fun _ => 0, fun _ => 0⟩, fun out hout => ?_⟩
  obtain ⟨t, ht, rfl⟩ := Option.map_eq_some_iff.mp hout
  refine ⟨fun hret => hfails ?_, fun hsame => hx ?_⟩
  · rw [← (reads_of_run number stack _ ht).count]
    exact ret_write_cal_eq_zero_iff.mp hret
  · have hentry := (entry_write_cal answer t.cal_records_no t.m_cal t.used 0).trans (hc _ t ht)
    rw [hsame] at hentry
    exact congrArg SectionCal.offset hentry

/-- Restoring the defaults changes some calibration even if the EEPROM does not take them. -/
theorem exists_changed_by_NULL [Nontrivial R] {answer : ℤ} (hfails : ¬0 ≤ answer) :
    ∃ m_cal : StoredCal R, ∀ out, write_calibration number stack answer .NULL m_cal = some out →
      out.ret ≠ 0 ∧ out.m_cal ≠ m_cal := by
  obtain ⟨x, hx⟩ := exists_ne (0 : R)
  refine ⟨⟨0, fun _ => x, fun _ => 0, fun _ => 0⟩, fun out hout => ?_⟩
  obtain rfl := Option.some.inj hout
  refine ⟨fun hret => hfails (ret_write_cal_eq_zero_iff.mp hret).2, fun hsame => hx ?_⟩
  have hentry := entry_write_cal answer 8
    (StoredCal.reset (⟨0, fun _ => x, fun _ => 0, fun _ => 0⟩ : StoredCal R)) [] 0
  rw [hsame] at hentry
  exact congrArg SectionCal.offset hentry

/-- **A rejected calibration changes nothing exactly when the call is harmless.** -/
theorem rejected_unchanged_iff [Nontrivial R] (number : List Char → R)
    (stack : (ℕ → R) × (ℕ → R)) (answer : ℤ) (cal_file : CalFile) :
    (∀ m_cal : StoredCal R, ∃ out,
        write_calibration number stack answer cal_file m_cal = some out ∧
          (out.ret ≠ 0 → out.m_cal = m_cal)) ↔ Harmless answer cal_file := by
  refine ⟨fun h => ?_, fun h => unchanged_of_harmless number stack h⟩
  cases cal_file with
  | NULL =>
      refine not_not.mp fun hfails => ?_
      obtain ⟨m_cal, hchanged⟩ := exists_changed_by_NULL number stack hfails
      obtain ⟨out, hout, hsame⟩ := h m_cal
      exact (hchanged out hout).2 (hsame (hchanged out hout).1)
  | cannotOpen => trivial
  | file fp =>
      obtain ⟨out, hout, -⟩ := h ⟨0, fun _ => 0, fun _ => 0, fun _ => 0⟩
      obtain ⟨t, ht, -⟩ := Option.map_eq_some_iff.mp hout
      refine ⟨(reads_iff_fits number stack _ fp).mp ⟨t, ht⟩, ?_⟩
      by_contra hnot
      rw [not_or] at hnot
      obtain ⟨m_cal, hchanged⟩ :=
        exists_changed number stack hnot.1 hnot.2
      obtain ⟨out, hout, hsame⟩ := h m_cal
      exact (hchanged out hout).2 (hsame (hchanged out hout).1)

end Calls

/-! ### Files that go wrong -/

/-- The value of a number in plain decimal notation. -/
def decimal (s : List Char) : ℚ :=
  let digits := s.filter Char.isDigit
  let value : ℚ := digits.foldl (fun n c => 10 * n + (c.toNat - '0'.toNat : ℕ)) 0
  let places := ((s.dropWhile (· ≠ '.')).drop 1).length
  (if s.head? = some '-' then -1 else 1) * value / 10 ^ places

/-- A file with one section. -/
def oneSection : List Char := "</>\n<0.0, 0.5>\n<\\>\n".toList

/-- A file with one section, in which 17 lines come before the end. -/
def longSection : List Char :=
  "</>\n".toList ++ (List.replicate 17 "<0.0, 0.5>\n".toList).flatten ++ "<\\>\n".toList

/-- Tables with zeros, and the calibration that a device starts with. -/
def zeros : (ℕ → ℚ) × (ℕ → ℚ) := (fun _ => 0, fun _ => 0)

/-- The calibration of a device without one. -/
def StoredCal.initial : StoredCal ℚ := ⟨0, fun _ => 0, fun _ => 1, fun _ => 1⟩

/-- **A file with one section** is refused, and has changed the offset of the first entry. -/
theorem one_section_changes_m_cal :
    ¬∀ m_cal : StoredCal ℚ, ∃ out,
      write_calibration decimal zeros 1 (.file oneSection) m_cal = some out ∧
        (out.ret ≠ 0 → out.m_cal = m_cal) := by
  intro h
  obtain ⟨out, hout, hsame⟩ := h StoredCal.initial
  have hrun : (write_calibration decimal zeros 1 (.file oneSection) StoredCal.initial).map
      (fun out => (out.ret, out.m_cal.offset 0)) = some (-22, 1 / 2) := by decide +kernel
  rw [hout, Option.map_some, Option.some.injEq, Prod.mk.injEq] at hrun
  rw [hsame (by rw [hrun.1]; omega)] at hrun
  exact absurd hrun.2 (by decide +kernel)

/-- A file without sections is harmless. -/
theorem rejected_unchanged_without_sections :
    ∃ out, write_calibration decimal zeros 1 (.file "foo".toList) StoredCal.initial = some out ∧
      (out.ret ≠ 0 → out.m_cal = StoredCal.initial) :=
  (rejected_unchanged_iff decimal zeros 1 (.file "foo".toList)).mpr
    ⟨by decide +kernel, Or.inl (by decide +kernel)⟩ StoredCal.initial

/-- **A section of 17 lines** leaves the tables `ref` and `val`. -/
theorem long_section_leaves_tables :
    ¬∃ out, write_calibration decimal zeros 1 (.file longSection) StoredCal.initial = some out ∧
      (¬Fits (loopSections longSection) → out.ret ≠ 0) := by
  have hnone :
      (write_calibration decimal zeros 1 (.file longSection) StoredCal.initial).isNone := by
    decide +kernel
  rintro ⟨out, hout, -⟩
  rw [hout] at hnone
  cases hnone

end Libsmu
