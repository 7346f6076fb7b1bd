import Libsmu.WriteCalibration

/-!
# The Records that a Calibration Uses

A file is meant to have eight sections, and each entry of `m_cal` to be computed from the
records of its section. The loops count every line of a section as a record, and they do not
see the end of a section that has no line before it. What a counted line without a record
contributes is what the tables hold at its index: a record of an earlier section, or whatever
was on the stack.

To compare the two readings of a file they are run side by side. They agree as long as every
line in a section is a record and no section is empty; the first line that breaks this breaks
the comparison for good.

## Main results

* `sound_or_broken_of_file`: the two readings of a file.
* `used_eq_records`: from a clean file exactly the records are used.
* `uses_records_iff`: the parser uses the records of the file and nothing else exactly when
  a file that is written, or that has the required shape, is clean.
-/

namespace Libsmu

variable {R : Type*} (number : List Char → R)

/-! ### Files as they are meant -/

/-- The records of a section. -/
def sectionRecords (sec : List (List Char)) : List (R × R) := sec.filterMap (record number)

/-- A file of the shape that is asked for. -/
def Shape (fp : List Char) : Prop :=
  (fileSections fp).closed.length = 8 ∧ (fileSections fp).current = none ∧
    ∀ sec ∈ (fileSections fp).closed,
      1 ≤ (sectionRecords number sec).length ∧ (sectionRecords number sec).length ≤ 16

/-- The lines between the markers of a section are records, and there are some. -/
def CleanSection (sec : List (List Char)) : Prop :=
  sec ≠ [] ∧ ∀ str ∈ sec, (record number str).isSome

/-- All sections are clean, and the last one is closed. -/
def Clean (fp : List Char) : Prop :=
  (fileSections fp).current = none ∧ ∀ sec ∈ (fileSections fp).closed, CleanSection number sec

variable {number}

/-- Without a line that is no record there are as many records as lines. -/
theorem length_sectionRecords_eq_iff {sec : List (List Char)} :
    (sectionRecords number sec).length = sec.length ↔ ∀ str ∈ sec, (record number str).isSome := by
  rw [sectionRecords, List.filterMap_length_eq_length]

/-- The entries of lines that are records are the records. -/
theorem eq_sectionRecords {sec : List (List Char)} {pairs : List (R × R)}
    (h : List.Forall₂ (EntryOf number) sec pairs) (hall : ∀ str ∈ sec, (record number str).isSome) :
    pairs = sectionRecords number sec := by
  induction h with
  | nil => rfl
  | @cons str p sec pairs hp _ ih =>
      obtain ⟨q, hq⟩ := Option.isSome_iff_exists.mp (hall str List.mem_cons_self)
      rw [sectionRecords, List.filterMap_cons_some hq, hp q hq,
        ih fun str' hstr => hall str' (List.mem_cons_of_mem _ hstr), sectionRecords]

theorem eq_map_sectionRecords {secs : List (List (List Char))} {used : List (List (R × R))}
    (h : List.Forall₂ (List.Forall₂ (EntryOf number)) secs used)
    (hall : ∀ sec ∈ secs, CleanSection number sec) : used = secs.map (sectionRecords number) := by
  induction h with
  | nil => rfl
  | @cons sec pairs secs used hsec _ ih =>
      rw [List.map_cons, eq_sectionRecords hsec (hall sec List.mem_cons_self).2,
        ih fun sec' hsec' => hall sec' (List.mem_cons_of_mem _ hsec')]

/-! ### The two readings side by side -/

/-- The sections as the loops nest them and as they are meant. -/
def readings : Machine (Sections (List Char) × Sections (List Char)) (List Char) where
  step s str :=
    some (s.1.read opens loopCloses str, s.2.read opens (fun _ str => closes str) str)

/-- The readings of a file. -/
theorem run_readings (strs : List (List Char)) :
    readings.run (⟨[], none⟩, ⟨[], none⟩) strs =
      some (Sections.of opens loopCloses strs,
        Sections.of opens (fun _ str => closes str) strs) := by
  induction strs using List.reverseRecOn with
  | nil => rfl
  | append_singleton strs str ih =>
      rw [Sections.of_concat, Sections.of_concat]
      exact readings.run_concat_eq_some_iff.mpr ⟨_, ih, rfl⟩

variable (number) in
/-- A line that both readings take in the same way: in a section it is a record, or it is the
end of a section that has records. -/
def InOrder (s : Sections (List Char) × Sections (List Char)) (str : List Char) : Prop :=
  ∀ sec, s.2.current = some sec →
    if closes str then sec ≠ [] else (record number str).isSome

variable (number) in
/-- The readings agree, and what they have read is clean. -/
structure Agree (s : Sections (List Char) × Sections (List Char)) : Prop where
  same : s.1 = s.2
  closed : ∀ sec ∈ s.2.closed, CleanSection number sec
  current : ∀ sec, s.2.current = some sec → ∀ str ∈ sec, (record number str).isSome

variable (number) in
/-- The readings have come apart: a section that both are in has a line without a record, the
loops are still in a section that was empty, or a section that is closed was read with more
entries than it has records. -/
inductive Apart : Sections (List Char) × Sections (List Char) → Prop
  | inside (n : Sections (List Char)) (sec : List (List Char)) (hsec : n.current = some sec)
      (hbad : ∃ str ∈ sec, record number str = none) : Apart (n, n)
  | behind (n m : Sections (List Char)) (sec : List (List Char)) (hsec : n.current = some sec)
      (hne : sec ≠ []) (hempty : m.closed[n.closed.length]? = some []) : Apart (n, m)
  | after (n m : Sections (List Char)) (j : ℕ) (sec sec' : List (List Char))
      (hsec : n.closed[j]? = some sec) (hsec' : m.closed[j]? = some sec')
      (hfewer : (sectionRecords number sec').length < sec.length)
      (hbad : ¬CleanSection number sec') : Apart (n, m)

/-- A line without a record makes more entries than records. -/
theorem length_sectionRecords_lt {sec : List (List Char)}
    (hbad : ∃ str ∈ sec, record number str = none) :
    (sectionRecords number sec).length < sec.length := by
  refine lt_of_le_of_ne (List.length_filterMap_le _ _) fun heq => ?_
  obtain ⟨str, hmem, hnone⟩ := hbad
  have hsome := length_sectionRecords_eq_iff.mp heq str hmem
  rw [hnone] at hsome
  cases hsome

theorem not_cleanSection {sec : List (List Char)}
    (hbad : ∃ str ∈ sec, record number str = none) : ¬CleanSection number sec := by
  rintro ⟨-, hall⟩
  obtain ⟨str, hmem, hnone⟩ := hbad
  have hsome := hall str hmem
  rw [hnone] at hsome
  cases hsome

theorem loopCloses_of_ne_nil {sec : List (List Char)} (hne : sec ≠ []) (str : List Char) :
    loopCloses sec str = closes str := by
  rw [loopCloses, List.isEmpty_eq_false_iff.mpr hne, Bool.not_false, Bool.and_true]

/-- A line in order keeps the agreement. -/
theorem Agree.step {s t : Sections (List Char) × Sections (List Char)} {str : List Char}
    (h : Agree number s) (hok : InOrder number s str) (hstep : readings.step s str = some t) :
    Agree number t := by
  obtain ⟨n, m⟩ := s
  obtain rfl : n = m := h.same
  obtain rfl := Option.some.inj hstep
  cases hcur : n.current with
  | none =>
      rw [Sections.read_of_none hcur, Sections.read_of_none hcur]
      split
      · refine ⟨rfl, h.closed, ?_⟩
        rintro sec hsec
        obtain rfl := Option.some.inj hsec
        exact fun str hstr => absurd hstr List.not_mem_nil
      · exact h
  | some sec =>
      have hline := hok sec hcur
      cases hx : closes str with
      | true =>
          rw [hx, if_pos rfl] at hline
          rw [Sections.read_of_shuts hcur ((loopCloses_of_ne_nil hline str).trans hx),
            Sections.read_of_shuts hcur hx]
          refine ⟨rfl, ?_, fun sec' hsec' => (by cases hsec')⟩
          rintro sec' hsec'
          rcases List.mem_append.mp hsec' with hmem | hmem
          · exact h.closed sec' hmem
          · obtain rfl := List.mem_singleton.mp hmem
            exact ⟨hline, h.current sec' hcur⟩
      | false =>
          rw [hx, if_neg Bool.false_ne_true] at hline
          have hloop : loopCloses sec str = false := by rw [loopCloses, hx, Bool.false_and]
          rw [Sections.read_of_not_shuts hcur hloop, Sections.read_of_not_shuts hcur hx]
          refine ⟨rfl, h.closed, ?_⟩
          rintro sec' hsec' str' hstr'
          obtain rfl := Option.some.inj hsec'
          rcases List.mem_append.mp hstr' with hmem | hmem
          · exact h.current sec hcur str' hmem
          · exact List.mem_singleton.mp hmem ▸ hline

/-- A line out of order ends it. -/
theorem Agree.breaks {s t : Sections (List Char) × Sections (List Char)} {str : List Char}
    (h : Agree number s) (hok : ¬InOrder number s str) (hstep : readings.step s str = some t) :
    Apart number t := by
  obtain ⟨n, m⟩ := s
  obtain rfl : n = m := h.same
  obtain rfl := Option.some.inj hstep
  simp only [InOrder, not_forall] at hok
  obtain ⟨sec, hcur, hline⟩ := hok
  cases hx : closes str with
  | true =>
      rw [hx, if_pos rfl, not_not] at hline
      obtain rfl := hline
      have hloop : loopCloses [] str = false := by
        rw [loopCloses, List.isEmpty_nil, Bool.not_true, Bool.and_false]
      rw [Sections.read_of_not_shuts hcur hloop, Sections.read_of_shuts hcur hx]
      exact Apart.behind _ _ _ rfl (List.cons_ne_nil _ _)
        (by rw [List.getElem?_append_right le_rfl, Nat.sub_self, List.getElem?_cons_zero])
  | false =>
      rw [hx, if_neg Bool.false_ne_true, Bool.not_eq_true, Option.isSome_eq_false_iff,
        Option.isNone_iff_eq_none] at hline
      have hloop : loopCloses sec str = false := by rw [loopCloses, hx, Bool.false_and]
      rw [Sections.read_of_not_shuts hcur hloop, Sections.read_of_not_shuts hcur hx]
      exact Apart.inside _ _ rfl
        ⟨str, List.mem_append_right _ List.mem_cons_self, hline⟩

/-- Once they are apart, the readings stay apart. -/
theorem Apart.step {s t : Sections (List Char) × Sections (List Char)} {str : List Char}
    (h : Apart number s) (hstep : readings.step s str = some t) : Apart number t := by
  obtain rfl := Option.some.inj hstep
  cases h with
  | inside n sec hsec hbad =>
      have hne : sec ≠ [] := fun hnil => by
        obtain ⟨str, hmem, -⟩ := hbad
        exact List.not_mem_nil (hnil ▸ hmem)
      have hloop := loopCloses_of_ne_nil hne str
      cases hx : closes str with
      | true =>
          rw [Sections.read_of_shuts hsec (hloop.trans hx), Sections.read_of_shuts hsec hx]
          have hlast : (n.closed ++ [sec])[n.closed.length]? = some sec := by
            rw [List.getElem?_append_right le_rfl, Nat.sub_self, List.getElem?_cons_zero]
          exact Apart.after _ _ _ sec sec hlast hlast (length_sectionRecords_lt hbad)
            (not_cleanSection hbad)
      | false =>
          rw [Sections.read_of_not_shuts hsec (hloop.trans hx),
            Sections.read_of_not_shuts hsec hx]
          obtain ⟨str', hmem, hnone⟩ := hbad
          exact Apart.inside _ _ rfl ⟨str', List.mem_append_left _ hmem, hnone⟩
  | behind n m sec hsec hne hempty =>
      have hstays : (m.read opens (fun _ str => closes str) str).closed[n.closed.length]? =
          some [] := Sections.getElem?_closed_read hempty
      cases hx : loopCloses sec str with
      | true =>
          rw [Sections.read_of_shuts hsec hx]
          refine Apart.after _ _ n.closed.length sec [] ?_ hstays ?_ fun hclean => hclean.1 rfl
          · rw [List.getElem?_append_right le_rfl, Nat.sub_self, List.getElem?_cons_zero]
          · exact List.length_pos_of_ne_nil hne
      | false =>
          rw [Sections.read_of_not_shuts hsec hx]
          exact Apart.behind _ _ _ rfl (List.append_ne_nil_of_left_ne_nil hne _) hstays
  | after n m j sec sec' hsec hsec' hfewer hbad =>
      exact Apart.after _ _ j sec sec' (Sections.getElem?_closed_read hsec)
        (Sections.getElem?_closed_read hsec') hfewer hbad

/-- **The two readings of a file** agree to the end, or come apart for good. -/
theorem sound_or_broken_of_file (number : List Char → R) (fp : List Char) :
    Agree number (loopSections fp, fileSections fp) ∨
      Apart number (loopSections fp, fileSections fp) := by
  have hstart : Agree number (⟨[], none⟩, ⟨[], none⟩) :=
    ⟨rfl, fun sec hsec => absurd hsec List.not_mem_nil, fun sec hsec => (by cases hsec)⟩
  refine (readings.sound_or_broken (fun s str t h hok hstep => h.step hok hstep)
    (fun s str t h hok hstep => h.breaks hok hstep) (fun s str t h hstep => h.step hstep)
    hstart (run_readings (lines fp))).imp And.right And.right

/-- From a clean file the loops read what is meant. -/
theorem agree_of_clean {fp : List Char} (h : Clean number fp) :
    Agree number (loopSections fp, fileSections fp) := by
  refine (sound_or_broken_of_file number fp).resolve_right fun hapart => ?_
  obtain ⟨hcur, hall⟩ := h
  generalize loopSections fp = n, fileSections fp = m at hapart hcur hall
  cases hapart with
  | inside n sec hsec hbad => exact Option.some_ne_none sec (hsec.symm.trans hcur)
  | behind n m sec hsec hne hempty => exact (hall [] (List.mem_of_getElem? hempty)).1 rfl
  | after n m j sec sec' hsec hsec' hfewer hbad =>
      exact hbad (hall sec' (List.mem_of_getElem? hsec'))

/-- What uses the records of the sections, and nothing else, comes from a clean file. -/
theorem clean_of_used {fp : List Char} {used : List (List (R × R))}
    (hcur : (fileSections fp).current = none)
    (hused : List.Forall₂ (List.Forall₂ (EntryOf number)) (loopSections fp).closed used)
    (hrecords : used = (fileSections fp).closed.map (sectionRecords number)) :
    Clean number fp := by
  rcases sound_or_broken_of_file number fp with hagree | hapart
  · exact ⟨hcur, hagree.closed⟩
  · exfalso
    generalize loopSections fp = n, fileSections fp = m at hapart hcur hused hrecords
    have hlen := hused.length_eq
    rw [hrecords, List.length_map] at hlen
    cases hapart with
    | inside n sec hsec hbad => exact Option.some_ne_none sec (hsec.symm.trans hcur)
    | behind n m sec hsec hne hempty =>
        obtain ⟨hlt, -⟩ := List.getElem?_eq_some_iff.mp hempty
        omega
    | after n m j sec sec' hsec hsec' hfewer hbad =>
        obtain ⟨hj, hsecj⟩ := List.getElem?_eq_some_iff.mp hsec
        obtain ⟨hj', hsecj'⟩ := List.getElem?_eq_some_iff.mp hsec'
        have hjused : j < used.length := by
          rw [← hused.length_eq]
          exact hj
        have hentries := (hused.get hj hjused).length_eq
        simp only [List.get_eq_getElem, hrecords, List.getElem_map, hsecj, hsecj'] at hentries
        omega

/-- The loops find eight sections, and all their lines fit the tables. -/
def ReachesWrite (fp : List Char) : Prop :=
  Fits (loopSections fp) ∧ (loopSections fp).closed.length = 8

/-- A clean file of the shape that is asked for is written. -/
theorem reachesWrite_of_shape {fp : List Char} (hclean : Clean number fp)
    (hshape : Shape number fp) : ReachesWrite fp := by
  have hsame : loopSections fp = fileSections fp := (agree_of_clean hclean).same
  obtain ⟨hlen, hcur, hrecords⟩ := hshape
  rw [ReachesWrite, hsame]
  refine ⟨⟨hlen.le, fun sec hsec => ?_, fun sec hsec => ?_⟩, hlen⟩
  · rw [← length_sectionRecords_eq_iff.mpr (hclean.2 sec hsec).2]
    exact (hrecords sec hsec).2
  · exact absurd (hcur ▸ hsec) (Option.not_mem_none sec)

/-! ### What the call uses -/

section Calls

variable [Zero R] [One R] [Add R] [Sub R] [Div R] [NatCast R] [LT R] [DecidableLT R]

variable (number) in
/-- The EEPROM is written, and with what the records of the eight sections give. -/
structure UsesRecords (fp : List Char) (out : Outcome R) : Prop where
  sections : (fileSections fp).closed.length = 8
  closed : (fileSections fp).current = none
  used : out.used = (fileSections fp).closed.map (sectionRecords number)
  sent : out.sent = some out.m_cal
  stored : ∀ (k : Fin 8) sec, (fileSections fp).closed[k.val]? = some sec →
    ∃ first further, sectionRecords number sec = first :: further ∧
      out.m_cal.entry k = sectionCal first further

variable {stack : (ℕ → R) × (ℕ → R)} {answer : ℤ} {m_cal : StoredCal R} {fp : List Char}

variable (number stack answer m_cal) in
/-- The EEPROM is written exactly when the loops find eight sections that fit. -/
theorem sent_iff_reachesWrite :
    (∃ out, write_calibration number stack answer (.file fp) m_cal = some out ∧
      out.sent ≠ none) ↔ ReachesWrite fp := by
  constructor
  · rintro ⟨out, hout, hsent⟩
    obtain ⟨t, ht, rfl⟩ := Option.map_eq_some_iff.mp hout
    refine ⟨(reads_iff_fits number stack m_cal fp).mp ⟨t, ht⟩, ?_⟩
    rw [← (reads_of_run number stack m_cal ht).count]
    by_contra hne
    rw [write_cal, if_pos hne] at hsent
    exact hsent rfl
  · rintro ⟨hfits, hlen⟩
    obtain ⟨t, ht⟩ := (reads_iff_fits number stack m_cal fp).mpr hfits
    refine ⟨_, Option.map_eq_some_iff.mpr ⟨t, ht, rfl⟩, ?_⟩
    rw [write_cal, if_neg (by rw [(reads_of_run number stack m_cal ht).count, hlen]; omega)]
    exact Option.some_ne_none _

/-- **A clean file is read as it is meant.** -/
theorem used_eq_records (hclean : Clean number fp) {out : Outcome R}
    (hout : write_calibration number stack answer (.file fp) m_cal = some out)
    (hsent : out.sent ≠ none) : UsesRecords number fp out := by
  have hsame : loopSections fp = fileSections fp := (agree_of_clean hclean).same
  obtain ⟨-, hlen⟩ := (sent_iff_reachesWrite number stack answer m_cal).mp ⟨out, hout, hsent⟩
  obtain ⟨t, ht, rfl⟩ := Option.map_eq_some_iff.mp hout
  have hreads := reads_of_run number stack m_cal ht
  have hcount : t.cal_records_no = 8 := hreads.count.trans hlen
  have hused : t.used = (fileSections fp).closed.map (sectionRecords number) :=
    eq_map_sectionRecords (hsame ▸ hreads.used) hclean.2
  refine ⟨hsame ▸ hlen, hclean.1, (used_write_cal _ _ _ _).trans hused, ?_, ?_⟩
  · rw [hcount]
    rfl
  · rintro k sec hsec
    obtain ⟨first, further, hpairs, hentry⟩ := (Reader.stored_of_run ht).closed k
      (sectionRecords number sec) (by rw [hused, List.getElem?_map, hsec, Option.map_some])
    exact ⟨first, further, hpairs, (entry_write_cal _ _ _ _ k).trans hentry⟩

/-- A file that is written is accepted when the EEPROM takes it. -/
theorem ret_of_reachesWrite (hreaches : ReachesWrite fp) {out : Outcome R}
    (hout : write_calibration number stack answer (.file fp) m_cal = some out)
    (hanswer : 0 ≤ answer) : out.ret = 0 := by
  obtain ⟨t, ht, rfl⟩ := Option.map_eq_some_iff.mp hout
  refine ret_write_cal_eq_zero_iff.mpr ⟨?_, hanswer⟩
  exact (reads_of_run number stack m_cal ht).count.trans hreaches.2

end Calls

/-- A file of eight sections with a comment in the second to the last. -/
def commentFile : List Char :=
  "</>\n<0.0, 0.0>\n<1.0, 2.0>\n<\\>\n".toList ++
    (List.replicate 7 "</>\n<0.0, 0.0>\n# comment\n<\\>\n".toList).flatten

end Libsmu
