import Libsmu.CalibrationFile
import Libsmu.Lib.Machine
import Mathlib.Data.List.Forall2

/-!
# Reading the Sections of a Calibration

`write_calibration` reads the sections of a file into the tables `ref` and `val`, and puts what
it computes from a section into `m_cal` as soon as the section is closed.

A `Reader` is a machine whose actions are the lines that `fgets` returns; it is not able to
take a line for which an index would leave a table. The tables are not set when the call
starts: `stack` is what happens to be in them.

## Main results

* `run_reader`: a file is read to its end exactly when it `Fits` the tables, and the entries
  of a section are the records of its lines, where a line is a record.
* `Reader.stored_of_run`: each section that was closed is stored in the entries of its own.
* `Reader.run_sameTables`: what is computed does not depend on what was stored before.
-/

namespace Libsmu

/-! ### What is computed from a section -/

/-- The calibration of a device, as its EEPROM stores it. -/
@[ext]
structure StoredCal (R : Type*) where
  eeprom_valid : ℕ
  offset : Fin 8 → R
  gain_p : Fin 8 → R
  gain_n : Fin 8 → R

/-- The sums over the further records of a section, and how many records are in each. -/
structure GainSums (R : Type*) where
  gain_p : R
  cnt_p : ℕ
  gain_n : R
  cnt_n : ℕ

/-- The calibration of one section. -/
structure SectionCal (R : Type*) where
  offset : R
  gain_p : R
  gain_n : R

variable {R : Type*}

/-- Setting the entries of a section. -/
def StoredCal.set (cal : StoredCal R) (k : Fin 8) (c : SectionCal R) : StoredCal R :=
  { cal with
    offset := Function.update cal.offset k c.offset
    gain_p := Function.update cal.gain_p k c.gain_p
    gain_n := Function.update cal.gain_n k c.gain_n }

/-- The entries of a section. -/
def StoredCal.entry (cal : StoredCal R) (k : Fin 8) : SectionCal R :=
  ⟨cal.offset k, cal.gain_p k, cal.gain_n k⟩

theorem StoredCal.entry_set_self (cal : StoredCal R) (k : Fin 8) (c : SectionCal R) :
    (cal.set k c).entry k = c := by
  simp only [StoredCal.entry, StoredCal.set, Function.update_self]

theorem StoredCal.entry_set_of_ne (cal : StoredCal R) {j k : Fin 8} (h : j ≠ k)
    (c : SectionCal R) : (cal.set k c).entry j = cal.entry j := by
  simp only [StoredCal.entry, StoredCal.set, Function.update_of_ne h]

section Arithmetic

variable [Zero R] [One R] [Add R] [Sub R] [Div R] [NatCast R] [LT R] [DecidableLT R]

/-- One round of the loop over the records behind the first one. -/
def GainSums.add (offset : R) (s : GainSums R) (p : R × R) : GainSums R :=
  if 0 < p.1 then
    { s with gain_p := s.gain_p + p.1 / (p.2 - offset), cnt_p := s.cnt_p + 1 }
  else
    { s with gain_n := s.gain_n + p.1 / (p.2 - offset), cnt_n := s.cnt_n + 1 }

/-- All rounds of that loop. -/
def gainSums (offset : R) (further : List (R × R)) : GainSums R :=
  further.foldl (GainSums.add offset) ⟨0, 0, 0, 0⟩

/-- What is stored for a section: the first record gives the offset, the others the mean of
the gains, which is 1 when there are none. -/
def sectionCal (first : R × R) (further : List (R × R)) : SectionCal R :=
  let offset := first.2 - first.1
  let s := gainSums offset further
  { offset := offset
    gain_p := if s.cnt_p ≠ 0 then s.gain_p / s.cnt_p else 1
    gain_n := if s.cnt_n ≠ 0 then s.gain_n / s.cnt_n else 1 }

end Arithmetic

/-! ### Reading the file -/

/-- What `write_calibration` keeps while it reads. -/
structure Reader (R : Type*) where
  /-- the next line is read by the inner loop, that of a section -/
  inside : Bool
  m_cal : StoredCal R
  cal_records_no : ℕ
  rec_idx : ℕ
  ref : ℕ → R
  val : ℕ → R
  /-- the entries that each closed section was computed from; the code does not keep them -/
  used : List (List (R × R))

namespace Reader

/-- The start of the call. -/
def start (stack : (ℕ → R) × (ℕ → R)) (m_cal : StoredCal R) : Reader R where
  inside := false
  m_cal := m_cal
  cal_records_no := 0
  rec_idx := 0
  ref := stack.1
  val := stack.2
  used := []

/-- `ref[i]` and `val[i]`. -/
def pair (t : Reader R) (i : ℕ) : R × R := (t.ref i, t.val i)

/-- The entries up to `rec_idx`. -/
def pairs (t : Reader R) : List (R × R) := (List.range t.rec_idx).map t.pair

/-- The entries that the loop over the records goes through. -/
def further (t : Reader R) : List (R × R) := (List.range' 1 (t.rec_idx - 1)).map t.pair

/-- An entry of a table after an assignment that may not take place. -/
def assign (table : ℕ → R) (i : ℕ) : Option R → ℕ → R
  | none => table
  | some x => Function.update table i x

variable (number : List Char → R)

/-- Any other line of a section, whether it has a record or not. -/
def takeRecord (t : Reader R) (str : List Char) : Option (Reader R) :=
  if t.rec_idx < 16 then
    let assigned := sscanf number str
    some
      { t with
        ref := assign t.ref t.rec_idx assigned.1
        val := assign t.val t.rec_idx (assigned.2.map Prod.fst)
        rec_idx := t.rec_idx + 1 }
  else none

section Arithmetic

variable [Zero R] [One R] [Add R] [Sub R] [Div R] [NatCast R] [LT R] [DecidableLT R]

/-- The end of a section that has lines. -/
def closeSection (t : Reader R) : Option (Reader R) :=
  if h : t.rec_idx ≤ 16 ∧ t.cal_records_no < 8 then
    some
      { t with
        inside := false
        m_cal := t.m_cal.set ⟨t.cal_records_no, h.2⟩ (sectionCal (t.pair 0) t.further)
        cal_records_no := t.cal_records_no + 1
        used := t.used ++ [t.pair 0 :: t.further] }
  else none

/-- One line, by the loop that has called `fgets`. -/
def readLine (t : Reader R) (str : List Char) : Option (Reader R) :=
  if t.inside then
    if closes str ∧ t.rec_idx ≠ 0 then t.closeSection else t.takeRecord number str
  else if opens str then some { t with inside := true, rec_idx := 0 }
  else some t

end Arithmetic

end Reader

section Arithmetic

variable [Zero R] [One R] [Add R] [Sub R] [Div R] [NatCast R] [LT R] [DecidableLT R]

/-- The two loops as a machine that is driven by the lines of the file. -/
def reader (number : List Char → R) : Machine (Reader R) (List Char) where
  step := Reader.readLine number

end Arithmetic

/-! ### The tables -/

/-- A file fits the tables when at most eight of its sections are closed and none of its
sections has more than 16 lines, as the loops nest the lines. -/
def Fits (n : Sections (List Char)) : Prop :=
  n.closed.length ≤ 8 ∧ (∀ sec ∈ n.closed, sec.length ≤ 16) ∧
    ∀ sec ∈ n.current, sec.length ≤ 16

instance (n : Sections (List Char)) : Decidable (Fits n) :=
  inferInstanceAs (Decidable (_ ∧ _))

/-- What fits after a line has fitted before. -/
theorem fits_of_fits_read {n : Sections (List Char)} {str : List Char}
    (h : Fits (n.read opens loopCloses str)) : Fits n := by
  cases hcur : n.current with
  | none =>
      rw [Sections.read_of_none hcur] at h
      refine ⟨?_, ?_, fun sec hsec => absurd (hcur ▸ hsec) (Option.not_mem_none sec)⟩
      · split at h
        · exact h.1
        · exact h.1
      · split at h
        · exact h.2.1
        · exact h.2.1
  | some sec =>
      cases hx : loopCloses sec str with
      | true =>
          rw [Sections.read_of_shuts hcur hx] at h
          obtain ⟨hlen, hall, -⟩ := h
          rw [List.length_append, List.length_singleton] at hlen
          refine ⟨by omega, fun sec' hsec' => hall sec' (List.mem_append_left _ hsec'), ?_⟩
          rintro sec' hsec'
          obtain rfl := Option.some.inj (hcur.symm.trans hsec')
          exact hall _ (List.mem_append_right _ List.mem_cons_self)
      | false =>
          rw [Sections.read_of_not_shuts hcur hx] at h
          obtain ⟨hlen, hall, hone⟩ := h
          refine ⟨hlen, hall, ?_⟩
          rintro sec' hsec'
          obtain rfl := Option.some.inj (hcur.symm.trans hsec')
          have := hone _ rfl
          rw [List.length_append, List.length_singleton] at this
          omega

/-! ### What the reader keeps -/

section Reads

variable (number : List Char → R)

/-- The entry for a line that is a record is the record. -/
def EntryOf (str : List Char) (p : R × R) : Prop := ∀ q, record number str = some q → p = q

/-- The reader has read lines that nest as `n` says. -/
structure Reads (t : Reader R) (n : Sections (List Char)) : Prop where
  fits : Fits n
  inside : t.inside = n.current.isSome
  count : t.cal_records_no = n.closed.length
  current : ∀ sec, n.current = some sec → List.Forall₂ (EntryOf number) sec t.pairs
  used : List.Forall₂ (List.Forall₂ (EntryOf number)) n.closed t.used

variable {number}

namespace Reader

theorem length_pairs (t : Reader R) : t.pairs.length = t.rec_idx := by
  rw [pairs, List.length_map, List.length_range]

/-- The entries of a section are the first one and those that the loop goes through. -/
theorem pairs_eq_cons {t : Reader R} (h : t.rec_idx ≠ 0) : t.pairs = t.pair 0 :: t.further := by
  obtain ⟨n, hn⟩ := Nat.exists_eq_succ_of_ne_zero h
  rw [pairs, further, hn, List.range_eq_range', List.range'_succ, List.map_cons, Nat.succ_sub_one]

theorem assign_self (table : ℕ → R) (i : ℕ) (x : R) : assign table i (some x) i = x :=
  Function.update_self _ _ _

theorem assign_of_ne (table : ℕ → R) {i j : ℕ} (h : j ≠ i) (x : Option R) :
    assign table i x j = table j := by
  cases x with
  | none => rfl
  | some x => exact Function.update_of_ne h _ _

/-- A line of a section adds an entry, which is its record if it has one. -/
theorem pairs_of_takeRecord {t t' : Reader R} {str : List Char}
    (h : t.takeRecord number str = some t') :
    ∃ p, EntryOf number str p ∧ t'.pairs = t.pairs ++ [p] := by
  rw [takeRecord] at h
  split at h
  · obtain rfl := Option.some.inj h
    refine ⟨(assign t.ref t.rec_idx (sscanf number str).1 t.rec_idx,
      assign t.val t.rec_idx ((sscanf number str).2.map Prod.fst) t.rec_idx), ?_, ?_⟩
    · rintro q hq
      obtain ⟨s, hs⟩ := sscanf_of_record hq
      rw [hs, Option.map_some, assign_self, assign_self]
    · have hpair : ∀ i ∈ List.range t.rec_idx,
          (assign t.ref t.rec_idx (sscanf number str).1 i,
            assign t.val t.rec_idx ((sscanf number str).2.map Prod.fst) i) = t.pair i := by
        rintro i hi
        have hne : i ≠ t.rec_idx := (List.mem_range.mp hi).ne
        rw [assign_of_ne _ hne, assign_of_ne _ hne, pair]
      rw [pairs, List.range_succ, List.map_append, List.map_singleton, pairs]
      exact congrArg (· ++ _) (List.map_congr_left hpair)
  · cases h

/-- A line of a section leaves everything but the entries as it is. -/
theorem takeRecord_frame {t t' : Reader R} {str : List Char}
    (h : t.takeRecord number str = some t') :
    t'.inside = t.inside ∧ t'.cal_records_no = t.cal_records_no ∧ t'.used = t.used ∧
      t'.m_cal = t.m_cal := by
  rw [takeRecord] at h
  split at h
  · obtain rfl := Option.some.inj h
    exact ⟨rfl, rfl, rfl, rfl⟩
  · cases h

theorem takeRecord_eq_none_iff {t : Reader R} {str : List Char} :
    t.takeRecord number str = none ↔ 16 ≤ t.rec_idx := by
  rw [takeRecord]
  split
  · exact iff_of_false (by simp) (by omega)
  · exact iff_of_true rfl (by omega)

end Reader

theorem Reads.rec_idx_eq {t : Reader R} {n : Sections (List Char)} (h : Reads number t n)
    {sec : List (List Char)} (hsec : n.current = some sec) : t.rec_idx = sec.length := by
  rw [← t.length_pairs, (h.current sec hsec).length_eq]

/-! ### Reading all lines -/

variable [Zero R] [One R] [Add R] [Sub R] [Div R] [NatCast R] [LT R] [DecidableLT R]

/-- Outside the sections a line only opens one, or is passed over. -/
theorem Reads.readLine_outside {t : Reader R} {n : Sections (List Char)} (h : Reads number t n)
    (hcur : n.current = none) (str : List Char) :
    ∃ t', t.readLine number str = some t' ∧ Reads number t' (n.read opens loopCloses str) := by
  have hin : t.inside = false := by rw [h.inside, hcur, Option.isSome_none]
  rw [Reader.readLine, hin, if_neg Bool.false_ne_true, Sections.read_of_none hcur]
  by_cases hopen : opens str = true
  · rw [if_pos hopen, if_pos hopen]
    refine ⟨_, rfl, ⟨⟨h.fits.1, h.fits.2.1, ?_⟩, rfl, h.count, ?_, h.used⟩⟩
    · rintro sec hsec
      obtain rfl := Option.some.inj hsec
      exact Nat.zero_le _
    · rintro sec hsec
      obtain rfl := Option.some.inj hsec
      exact List.Forall₂.nil
  · rw [if_neg hopen, if_neg hopen]
    exact ⟨t, rfl, h⟩

/-- In a section the loop decides as `loopCloses` does. -/
theorem Reads.readLine_inside {t : Reader R} {n : Sections (List Char)} (h : Reads number t n)
    {sec : List (List Char)} (hcur : n.current = some sec) (str : List Char) :
    t.readLine number str =
      if loopCloses sec str then t.closeSection else t.takeRecord number str := by
  have hin : t.inside = true := by rw [h.inside, hcur, Option.isSome_some]
  have hidx : t.rec_idx ≠ 0 ↔ sec ≠ [] := by
    rw [h.rec_idx_eq hcur, Ne, List.length_eq_zero_iff]
  rw [Reader.readLine, if_pos hin]
  refine if_congr ?_ rfl rfl
  rw [loopCloses, Bool.and_eq_true, Bool.not_eq_true', List.isEmpty_eq_false_iff, hidx]

/-- A section that is closed needs an entry in the tables of `m_cal`. -/
theorem Reads.readLine_close {t : Reader R} {n : Sections (List Char)} (h : Reads number t n)
    {sec : List (List Char)} (hcur : n.current = some sec) {str : List Char}
    (hclose : loopCloses sec str = true) :
    (Fits (n.read opens loopCloses str) ∧ ∃ t', t.readLine number str = some t' ∧
        Reads number t' (n.read opens loopCloses str)) ∨
      (¬Fits (n.read opens loopCloses str) ∧ t.readLine number str = none) := by
  have hidx := h.rec_idx_eq hcur
  have hne : t.rec_idx ≠ 0 := by
    rw [loopCloses, Bool.and_eq_true, Bool.not_eq_true', List.isEmpty_eq_false_iff] at hclose
    rw [hidx, Ne, List.length_eq_zero_iff]
    exact hclose.2
  rw [h.readLine_inside hcur, if_pos hclose, Sections.read_of_shuts hcur hclose,
    Reader.closeSection]
  have hsec : sec.length ≤ 16 := h.fits.2.2 sec hcur
  by_cases hroom : n.closed.length < 8
  · left
    rw [dif_pos ⟨hidx ▸ hsec, h.count ▸ hroom⟩]
    have hfits : Fits ⟨n.closed ++ [sec], none⟩ := by
      refine ⟨?_, ?_, fun _ hsec' => absurd hsec' (Option.not_mem_none _)⟩
      · rw [List.length_append, List.length_singleton]
        omega
      · rintro sec' hsec'
        rcases List.mem_append.mp hsec' with hmem | hmem
        · exact h.fits.2.1 sec' hmem
        · exact List.mem_singleton.mp hmem ▸ hsec
    refine ⟨hfits, _, rfl, ⟨hfits, rfl, ?_, fun sec' hsec' => (by cases hsec'), ?_⟩⟩
    · rw [List.length_append, List.length_singleton]
      exact congrArg (· + 1) h.count
    · refine List.rel_append h.used (List.Forall₂.cons ?_ List.Forall₂.nil)
      rw [← Reader.pairs_eq_cons hne]
      exact h.current sec hcur
  · right
    rw [dif_neg fun hr => hroom (h.count ▸ hr.2)]
    refine ⟨fun hfits => hroom ?_, rfl⟩
    have hlen := hfits.1
    rw [List.length_append, List.length_singleton] at hlen
    omega

/-- Any other line of a section needs an entry in `ref` and `val`. -/
theorem Reads.readLine_record {t : Reader R} {n : Sections (List Char)} (h : Reads number t n)
    {sec : List (List Char)} (hcur : n.current = some sec) {str : List Char}
    (hclose : loopCloses sec str = false) :
    (Fits (n.read opens loopCloses str) ∧ ∃ t', t.readLine number str = some t' ∧
        Reads number t' (n.read opens loopCloses str)) ∨
      (¬Fits (n.read opens loopCloses str) ∧ t.readLine number str = none) := by
  have hidx := h.rec_idx_eq hcur
  rw [h.readLine_inside hcur, if_neg (Bool.not_eq_true _ ▸ hclose),
    Sections.read_of_not_shuts hcur hclose]
  cases hrec : t.takeRecord number str with
  | none =>
      right
      have hfull := Reader.takeRecord_eq_none_iff.mp hrec
      refine ⟨fun hfits => ?_, rfl⟩
      have hlen := hfits.2.2 _ rfl
      rw [List.length_append, List.length_singleton] at hlen
      omega
  | some t' =>
      left
      obtain ⟨p, hp, hpairs⟩ := Reader.pairs_of_takeRecord hrec
      obtain ⟨hinside, hcount, hused, -⟩ := Reader.takeRecord_frame hrec
      have hroom : ¬16 ≤ t.rec_idx := fun hfull =>
        absurd (Reader.takeRecord_eq_none_iff.mpr hfull)
          (by rw [hrec]; exact Option.some_ne_none t')
      have hfits : Fits { n with current := some (sec ++ [str]) } := by
        refine ⟨h.fits.1, h.fits.2.1, ?_⟩
        rintro sec' hsec'
        obtain rfl := Option.some.inj hsec'
        rw [List.length_append, List.length_singleton]
        omega
      refine ⟨hfits, t', rfl, ⟨hfits, ?_, hcount.trans h.count, ?_, hused ▸ h.used⟩⟩
      · rw [hinside, h.inside, hcur]
        rfl
      · rintro sec' hsec'
        obtain rfl := Option.some.inj hsec'
        rw [hpairs]
        exact List.rel_append (h.current sec hcur) (List.Forall₂.cons hp List.Forall₂.nil)

/-- **One line.** The reader takes a line exactly when what has been read still fits. -/
theorem Reads.readLine {t : Reader R} {n : Sections (List Char)} (h : Reads number t n)
    (str : List Char) :
    (Fits (n.read opens loopCloses str) ∧ ∃ t', t.readLine number str = some t' ∧
        Reads number t' (n.read opens loopCloses str)) ∨
      (¬Fits (n.read opens loopCloses str) ∧ t.readLine number str = none) := by
  cases hcur : n.current with
  | none =>
      obtain ⟨t', ht', hreads⟩ := h.readLine_outside hcur str
      exact Or.inl ⟨hreads.fits, t', ht', hreads⟩
  | some sec =>
      cases hclose : loopCloses sec str with
      | true => exact h.readLine_close hcur hclose
      | false => exact h.readLine_record hcur hclose

variable (number) (stack : (ℕ → R) × (ℕ → R)) (m_cal : StoredCal R)

/-- **The lines of a file.** The reader takes all lines exactly when their sections fit, and
nests them as the loops do. -/
theorem run_reader (strs : List (List Char)) :
    (Fits (Sections.of opens loopCloses strs) ∧
        ∃ t, (reader number).run (Reader.start stack m_cal) strs = some t ∧
          Reads number t (Sections.of opens loopCloses strs)) ∨
      (¬Fits (Sections.of opens loopCloses strs) ∧
        (reader number).run (Reader.start stack m_cal) strs = none) := by
  induction strs using List.reverseRecOn with
  | nil =>
      have hfits : Fits (Sections.of opens loopCloses []) := by decide
      exact Or.inl ⟨hfits, _, rfl,
        ⟨hfits, rfl, rfl, fun sec hsec => (by cases hsec), List.Forall₂.nil⟩⟩
  | append_singleton strs str ih =>
      rw [Sections.of_concat]
      rcases ih with ⟨-, t, ht, hreads⟩ | ⟨hnot, hnone⟩
      · rcases hreads.readLine str with ⟨hfits, t', ht', hreads'⟩ | ⟨hnot, hnone⟩
        · exact Or.inl ⟨hfits, t',
            (reader number).run_concat_eq_some_iff.mpr ⟨t, ht, ht'⟩, hreads'⟩
        · refine Or.inr ⟨hnot, Option.eq_none_iff_forall_not_mem.mpr fun u hu => ?_⟩
          obtain ⟨t', ht', hu⟩ := (reader number).run_concat_eq_some_iff.mp hu
          obtain rfl := Option.some.inj (ht.symm.trans ht')
          exact absurd (hnone.symm.trans hu) (Option.some_ne_none u).symm
      · refine Or.inr ⟨fun hfits => hnot (fits_of_fits_read hfits),
          Option.eq_none_iff_forall_not_mem.mpr fun u hu => ?_⟩
        obtain ⟨t', ht', -⟩ := (reader number).run_concat_eq_some_iff.mp hu
        exact absurd (hnone.symm.trans ht') (Option.some_ne_none t').symm

/-- **A file is read to its end exactly when it fits the tables.** -/
theorem reads_iff_fits (fp : List Char) :
    (∃ t, (reader number).run (Reader.start stack m_cal) (lines fp) = some t) ↔
      Fits (loopSections fp) := by
  rcases run_reader number stack m_cal (lines fp) with
    ⟨hfits, t, ht, -⟩ | ⟨hnot, hnone⟩
  · exact iff_of_true ⟨t, ht⟩ hfits
  · exact iff_of_false (fun ⟨t, ht⟩ => Option.some_ne_none t (ht.symm.trans hnone)) hnot

/-- What has been read of a file nests as its lines do. -/
theorem reads_of_run {fp : List Char} {t : Reader R}
    (ht : (reader number).run (Reader.start stack m_cal) (lines fp) = some t) :
    Reads number t (loopSections fp) := by
  rcases run_reader number stack m_cal (lines fp) with
    ⟨-, u, hu, hreads⟩ | ⟨-, hnone⟩
  · obtain rfl := Option.some.inj (ht.symm.trans hu)
    exact hreads
  · exact absurd (ht.symm.trans hnone) (Option.some_ne_none t)

/-! ### What is stored -/

variable {number stack}

/-- What the reader has stored: the entries of the sections that are closed. -/
structure Reader.Stored (m_cal : StoredCal R) (t : Reader R) : Prop where
  length : t.used.length = t.cal_records_no
  closed : ∀ (k : Fin 8) pairs, t.used[k.val]? = some pairs →
    ∃ first further, pairs = first :: further ∧ t.m_cal.entry k = sectionCal first further
  rest : ∀ k : Fin 8, t.cal_records_no ≤ k → t.m_cal.entry k = m_cal.entry k
  valid : t.m_cal.eeprom_valid = m_cal.eeprom_valid

namespace Reader

/-- What taking a line can do. -/
theorem readLine_cases {t t' : Reader R} {str : List Char}
    (h : t.readLine number str = some t') :
    (t.inside = false ∧ (t' = t ∨ t' = { t with inside := true, rec_idx := 0 })) ∨
      t.closeSection = some t' ∨ t.takeRecord number str = some t' := by
  rw [readLine] at h
  split at h
  · split at h
    · exact Or.inr (Or.inl h)
    · exact Or.inr (Or.inr h)
  · refine Or.inl ⟨Bool.eq_false_iff.mpr ‹_›, ?_⟩
    split at h
    · exact Or.inr (Option.some.inj h).symm
    · exact Or.inl (Option.some.inj h).symm

/-- A section that is closed is stored in the entries behind those already stored. -/
theorem closeSection_cases {t t' : Reader R} (h : t.closeSection = some t') :
    ∃ hroom : t.rec_idx ≤ 16 ∧ t.cal_records_no < 8, t' =
      { t with
        inside := false
        m_cal := t.m_cal.set ⟨t.cal_records_no, hroom.2⟩ (sectionCal (t.pair 0) t.further)
        cal_records_no := t.cal_records_no + 1
        used := t.used ++ [t.pair 0 :: t.further] } := by
  rw [closeSection] at h
  split at h
  · exact ⟨‹_›, (Option.some.inj h).symm⟩
  · cases h

theorem Stored.readLine {m_cal : StoredCal R} {t t' : Reader R} (h : t.Stored m_cal)
    {str : List Char} (hstep : t.readLine number str = some t') : t'.Stored m_cal := by
  rcases readLine_cases hstep with ⟨-, rfl | rfl⟩ | hclose | hrec
  · exact h
  · exact ⟨h.length, h.closed, h.rest, h.valid⟩
  · obtain ⟨hroom, rfl⟩ := closeSection_cases hclose
    refine ⟨?_, ?_, ?_, h.valid⟩
    · rw [List.length_append, List.length_singleton, h.length]
    · rintro k pairs hk
      rcases lt_trichotomy k.val t.cal_records_no with hlt | heq | hgt
      · rw [List.getElem?_append_left (h.length ▸ hlt)] at hk
        obtain ⟨first, further, hpairs, hentry⟩ := h.closed k pairs hk
        refine ⟨first, further, hpairs, ?_⟩
        rw [StoredCal.entry_set_of_ne _ (fun hk => hlt.ne (congrArg Fin.val hk)), hentry]
      · rw [List.getElem?_append_right (h.length ▸ heq.ge), heq, h.length, Nat.sub_self,
          List.getElem?_cons_zero] at hk
        obtain rfl : k = ⟨t.cal_records_no, hroom.2⟩ := Fin.ext heq
        exact ⟨_, _, (Option.some.inj hk).symm, StoredCal.entry_set_self _ _ _⟩
      · have hlen : (t.used ++ [t.pair 0 :: t.further]).length ≤ k.val := by
          rw [List.length_append, List.length_singleton, h.length]
          exact hgt
        rw [List.getElem?_eq_none hlen] at hk
        cases hk
    · rintro k hk
      rw [StoredCal.entry_set_of_ne _ (fun hk' => by
        have := congrArg Fin.val hk'
        simp only at hk this
        omega)]
      exact h.rest k (by simp only at hk; omega)
  · obtain ⟨-, hcount, hused, hcal⟩ := takeRecord_frame hrec
    exact ⟨by rw [hused, hcount, h.length], hused ▸ hcal ▸ h.closed,
      hcount ▸ hcal ▸ h.rest, hcal ▸ h.valid⟩

/-- What is stored after the lines of a file. -/
theorem stored_of_run {m_cal : StoredCal R} {strs : List (List Char)} {t : Reader R}
    (ht : (reader number).run (start stack m_cal) strs = some t) : t.Stored m_cal := by
  refine Machine.invariant (fun _ _ _ h hstep => h.readLine hstep) ?_ ht
  exact ⟨rfl, fun _ _ hk => (by cases hk), fun _ _ => rfl, rfl⟩

/-- Two readers that differ in `m_cal` only. -/
def SameTables (t u : Reader R) : Prop := u = { t with m_cal := u.m_cal }

/-- No line is read in a way that depends on `m_cal`. -/
theorem SameTables.readLine {t u t' : Reader R} (h : SameTables t u) {str : List Char}
    (hstep : t.readLine number str = some t') :
    ∃ u', u.readLine number str = some u' ∧ SameTables t' u' := by
  rw [h]
  rw [Reader.readLine] at hstep ⊢
  split at hstep
  · rename_i hin
    rw [if_pos hin]
    split at hstep
    · rename_i hclose
      rw [if_pos hclose]
      obtain ⟨hroom, rfl⟩ := closeSection_cases hstep
      exact ⟨_, dif_pos hroom, rfl⟩
    · rename_i hclose
      rw [if_neg hclose]
      rw [takeRecord] at hstep ⊢
      split at hstep
      · rename_i hroom
        obtain rfl := Option.some.inj hstep
        exact ⟨_, if_pos hroom, rfl⟩
      · cases hstep
  · rename_i hin
    rw [if_neg hin]
    split at hstep
    · rename_i hopen
      obtain rfl := Option.some.inj hstep
      exact ⟨_, if_pos hopen, rfl⟩
    · rename_i hopen
      obtain rfl := Option.some.inj hstep
      exact ⟨_, if_neg hopen, rfl⟩

/-- **What is computed from a file does not depend on `m_cal`.** -/
theorem run_sameTables {strs : List (List Char)} {m_cal : StoredCal R} {t : Reader R}
    (ht : (reader number).run (start stack m_cal) strs = some t) (m_cal' : StoredCal R) :
    ∃ u, (reader number).run (start stack m_cal') strs = some u ∧ u.used = t.used ∧
      u.cal_records_no = t.cal_records_no := by
  have hstart : SameTables (start stack m_cal) (start stack m_cal') := rfl
  obtain ⟨u, hu, hsame⟩ := Machine.simulation (N := reader number) SameTables
    (fun _ _ _ _ h hstep => SameTables.readLine h hstep) hstart ht
  exact ⟨u, hu, by rw [hsame], by rw [hsame]⟩

end Reader

end Reads

end Libsmu
