import Libsmu.CalibrationRecords
import Libsmu.Lib.DecimalText
import Mathlib.Data.List.TakeWhile

/-!
# The File of a Calibration Run

`pysmu cal -R` takes the readings of a device and of a multimeter, writes them to a calibration
file and has `write_calibration` read it. Behind two comment lines, one of which names the device,
the file has eight sections with a comment in front of each. The readings are printed with four
places. A double is the number it stands for, and zero has no sign.

The serial number can be set to any text. It gets into the file as it is.

## Main results

* `scanFloat_fixed`, `record_recordText`: what is printed is scanned as it was printed.
* `opens_deviceLine_iff`: when the name of the device looks like the start of a section.
* `lines_cal_file`: the lines of the file.
* `readings_used_iff`: the calibration is that of the readings unless the serial number or a
  version has the marker of a section.
* `readings_rounded_iff`: the readings that are used are those of the run, rounded to four places.
-/

namespace Libsmu

/-! ### Numbers -/

namespace NumberState

/-- What is read character by character is the start of what `scan` finds. -/
theorem scan_append {q r : NumberState} {s : List Char} (h : s.foldlM next q = some r)
    (t : List Char) : q.scan (s ++ t) = (r.scan t).map fun u => (s ++ u.1, u.2) := by
  induction s generalizing q with
  | nil =>
      obtain rfl := Option.some.inj h
      exact (congrFun Option.map_id (q.scan t)).symm
  | cons c s ih =>
      rw [List.foldlM_cons, Option.bind_eq_bind, Option.bind_eq_some_iff] at h
      obtain ⟨p, hp, h⟩ := h
      rw [List.cons_append, scan, hp]
      simp only [ih h, Option.map_map, Function.comp_def, List.cons_append]

/-- Digits in front of the point. -/
def Whole (q : NumberState) : Prop := q = zero ∨ q = digits false

/-- A digit begins the whole part of a number behind a sign. -/
theorem first_isDigit {c : Char} (hc : c.isDigit = true) : ∃ r, first c = some r ∧ Whole r := by
  rw [first]
  split
  · exact ⟨_, rfl, Or.inl rfl⟩
  · exact ⟨_, rfl, Or.inr rfl⟩

/-- A digit begins the whole part of a number without a sign, too. -/
theorem start_isDigit {c : Char} (hc : c.isDigit = true) :
    ∃ r, start.next c = some r ∧ Whole r := by
  have hsign : ¬(c = '+' ∨ c = '-') := by
    rintro (rfl | rfl)
    · cases hc
    · cases hc
  rw [next, if_neg hsign]
  exact first_isDigit hc

/-- A further digit goes on with it. -/
theorem Whole.next_isDigit {q : NumberState} (hq : Whole q) {c : Char} (hc : c.isDigit = true) :
    q.next c = some (digits false) := by
  have hafter : afterDigits false c = some (digits false) := by
    rw [afterDigits, isDigit, hc, Bool.true_or, if_pos rfl]
  have hx : ¬(c = 'x' ∨ c = 'X') := by
    rintro (rfl | rfl)
    · cases hc
    · cases hc
  rcases hq with rfl | rfl
  · exact (if_neg hx).trans hafter
  · exact hafter

/-- So do any number of them. -/
theorem Whole.foldlM {q : NumberState} (hq : Whole q) {s : List Char}
    (hs : ∀ c ∈ s, c.isDigit = true) : ∃ r, s.foldlM next q = some r ∧ Whole r := by
  induction s generalizing q with
  | nil => exact ⟨q, rfl, hq⟩
  | cons c s ih =>
      obtain ⟨r, hr, hwhole⟩ := ih (Or.inr rfl : Whole (digits false))
        fun d hd => hs d (List.mem_cons_of_mem _ hd)
      refine ⟨r, ?_, hwhole⟩
      rw [List.foldlM_cons, hq.next_isDigit (hs c List.mem_cons_self)]
      exact hr

/-- Behind the point digits go on with the fraction. -/
theorem fraction_foldlM {s : List Char} (hs : ∀ c ∈ s, c.isDigit = true) :
    s.foldlM next (fraction false) = some (fraction false) := by
  induction s with
  | nil => rfl
  | cons c s ih =>
      have hnext : (fraction false).next c = some (fraction false) := by
        rw [next, isDigit, hs c List.mem_cons_self, Bool.true_or, if_pos rfl]
      rw [List.foldlM_cons, hnext]
      exact ih fun d hd => hs d (List.mem_cons_of_mem _ hd)

/-- Digits, a point and digits, behind a sign or at the start. -/
theorem foldlM_point {q : NumberState}
    (hq : ∀ c : Char, c.isDigit = true → ∃ r, q.next c = some r ∧ Whole r)
    {s t : List Char} (hne : s ≠ []) (hs : ∀ c ∈ s, c.isDigit = true)
    (ht : ∀ c ∈ t, c.isDigit = true) :
    (s ++ '.' :: t).foldlM next q = some (fraction false) := by
  obtain ⟨c, s, rfl⟩ := List.exists_cons_of_ne_nil hne
  obtain ⟨r, hr, hwhole⟩ := hq c (hs c List.mem_cons_self)
  obtain ⟨p, hp, hwhole⟩ := hwhole.foldlM fun d hd => hs d (List.mem_cons_of_mem _ hd)
  have hpoint : p.next '.' = some (fraction false) := by
    rcases hwhole with rfl | rfl
    · rfl
    · rfl
  rw [List.cons_append, List.foldlM_cons, hr, Option.bind_eq_bind, Option.bind_some,
    List.foldlM_append, hp, Option.bind_eq_bind, Option.bind_some, List.foldlM_cons, hpoint]
  exact fraction_foldlM ht

end NumberState

namespace CalibrationRun

open DecimalText

/-! ### What is written -/

/-- A text that the device gives: a line that fits its buffer of 32 characters. -/
structure DeviceText where
  text : List Char
  short : text.length ≤ 31
  line : '\n' ∉ text
  nonzero : '\x00' ∉ text

/-- The texts that name a device. -/
structure DeviceName where
  serial : DeviceText
  fwver : DeviceText
  hwver : DeviceText

/-- `Device.__str__`. -/
def DeviceName.str (dev : DeviceName) : List Char :=
  "serial ".toList ++ dev.serial.text ++ " : fw ".toList ++ dev.fwver.text ++
    " : hw ".toList ++ dev.hwver.text

/-- The pairs of readings of a section. -/
structure Readings where
  pairs : List (ℚ × ℚ)
  ne_nil : pairs ≠ []
  length_le : pairs.length ≤ 16
  small : ∀ x ∈ pairs, |x.1| ≤ 10 ^ 54 ∧ |x.2| ≤ 10 ^ 54

/-- `cal_str_map`. -/
def cal_str_map : Fin 8 → List Char := fun i =>
  (match i with
  | 0 => "Channel A, measure V"
  | 1 => "Channel A, measure I"
  | 2 => "Channel A, source V"
  | 3 => "Channel A, source I"
  | 4 => "Channel B, measure V"
  | 5 => "Channel B, measure I"
  | 6 => "Channel B, source V"
  | 7 => "Channel B, source I").toList

/-- `'<{:.4f}, {:.4f}>'.format(*x)`. -/
def recordText (x : ℚ × ℚ) : List Char :=
  '<' :: fixed 4 x.1 ++ ", ".toList ++ fixed 4 x.2 ++ ">".toList

/-- What is written for a section. -/
def sectionText (i : Fin 8) (d : Readings) : List Char :=
  "# ".toList ++ cal_str_map i ++ "\n</>\n".toList ++
    ['\n'].intercalate (d.pairs.map recordText) ++ "\n<\\>\n\n".toList

/-- The file. -/
def cal_file (dev : DeviceName) (d : Fin 8 → Readings) : List Char :=
  "# ADALM1000 calibration file\n# Device: ".toList ++ dev.str ++ "\n\n".toList ++
    (List.finRange 8).flatMap fun i => sectionText i (d i)

/-! ### Printed numbers -/

/-- At least one digit is printed. -/
theorem digits_ne_nil (n : ℕ) : digits 1 n ≠ [] := by
  refine List.ne_nil_of_length_pos ?_
  rw [length_digits]
  exact Nat.lt_of_lt_of_le Nat.one_pos (le_max_left _ _)

/-- **A printed number is scanned to its end.** -/
theorem foldlM_fixed (places : ℕ) (x : ℚ) :
    (fixed places x).foldlM NumberState.next .start = some (.fraction false) := by
  have hwhole : ∀ c ∈ digits 1 (units places x / 10 ^ places), c.isDigit = true := fun c =>
    isDigit_of_mem_digits
  have hfraction : ∀ c ∈ digits places (units places x % 10 ^ places), c.isDigit = true :=
    fun c => isDigit_of_mem_digits
  rw [fixed, List.append_assoc]
  split
  · rw [List.singleton_append, List.foldlM_cons]
    exact NumberState.foldlM_point (fun c => NumberState.first_isDigit) (digits_ne_nil _) hwhole
      hfraction
  · rw [List.nil_append]
    exact NumberState.foldlM_point (fun c => NumberState.start_isDigit) (digits_ne_nil _) hwhole
      hfraction

/-- A printed number has a minus sign, digits and a point. -/
theorem mem_fixed {places : ℕ} {x : ℚ} {c : Char} (hc : c ∈ fixed places x) :
    c = '-' ∨ c = '.' ∨ c.isDigit = true := by
  rw [fixed, List.mem_append, List.mem_append, List.mem_cons] at hc
  rcases hc with (hc | hc) | (rfl | hc)
  · split at hc
    · exact Or.inl (List.mem_singleton.mp hc)
    · cases hc
  · exact Or.inr (Or.inr (isDigit_of_mem_digits hc))
  · exact Or.inr (Or.inl rfl)
  · exact Or.inr (Or.inr (isDigit_of_mem_digits hc))

/-- A printed number is not empty. -/
theorem fixed_ne_nil (places : ℕ) (x : ℚ) : fixed places x ≠ [] :=
  List.append_ne_nil_of_right_ne_nil _ (List.cons_ne_nil _ _)

/-- Its characters are no white space. -/
theorem not_isspace {c : Char} (hc : c = '-' ∨ c = '.' ∨ c.isDigit = true) :
    isspace c = false := by
  rcases hc with rfl | rfl | hc
  · rfl
  · rfl
  · rw [Char.isDigit, Bool.and_eq_true, decide_eq_true_eq] at hc
    have hle : '0' ≤ c := hc.1
    have hspace : c ≠ ' ' := fun h => absurd (h ▸ hle) (by decide)
    have hcontrol : ¬c ≤ '\r' := fun h =>
      absurd (Char.le_trans hle h) (by decide)
    rw [isspace, beq_eq_false_iff_ne.mpr hspace, decide_eq_false hcontrol, Bool.and_false,
      Bool.or_false]

/-- `%f` skips nothing in front of it. -/
theorem dropWhile_fixed (places : ℕ) (x : ℚ) (t : List Char) :
    (fixed places x ++ t).dropWhile isspace = fixed places x ++ t := by
  obtain ⟨d, s, hs⟩ := List.exists_cons_of_ne_nil (fixed_ne_nil places x)
  have hd : isspace d = false := not_isspace (mem_fixed (hs ▸ List.mem_cons_self))
  rw [hs, List.cons_append, List.dropWhile_cons_of_neg (by rw [hd]; exact Bool.false_ne_true)]

/-- `%f` takes the printed number in front of a character that is not part of one. -/
theorem scanFloat_fixed (places : ℕ) (x : ℚ) {c : Char}
    (hc : (NumberState.fraction false).next c = none) (t : List Char) :
    scanFloat (fixed places x ++ c :: t) = some (fixed places x, c :: t) := by
  rw [scanFloat, dropWhile_fixed, NumberState.scan_append (foldlM_fixed places x),
    NumberState.scan, hc]
  simp [NumberState.accepts]

/-- Numbers up to 10^54 fit a line of the file. -/
theorem length_fixed_le {x : ℚ} (h : |x| ≤ 10 ^ 54) : (fixed 4 x).length ≤ 61 := by
  have hunits : units 4 x ≤ 10 ^ 54 * 10 ^ 4 := units_le (n := 10 ^ 54) (by exact_mod_cast h)
  have hwhole : (digits 1 (units 4 x / 10 ^ 4)).length ≤ 55 :=
    length_digits_le (by omega) (Nat.lt_of_le_of_lt (Nat.div_le_of_le_mul (by omega))
      (Nat.pow_lt_pow_right (by omega) (by omega : 54 < 55)))
  have hfraction : (digits 4 (units 4 x % 10 ^ 4)).length = 4 :=
    length_digits_of_lt (Nat.mod_lt _ (by omega))
  have hsign : (if x < 0 then ['-'] else []).length ≤ 1 := by
    split
    · exact Nat.le_refl _
    · exact Nat.zero_le _
  rw [fixed, List.length_append, List.length_append, List.length_cons, hfraction]
  omega

/-- The value of digits, in rational numbers. -/
theorem foldl_eq_valueFrom (n : ℕ) (s : List Char) :
    s.foldl (fun (v : ℚ) c => 10 * v + (c.toNat - '0'.toNat : ℕ)) n = valueFrom n s := by
  induction s generalizing n with
  | nil => rfl
  | cons c s ih =>
      rw [List.foldl_cons, valueFrom, List.foldl_cons, ← valueFrom, ← ih]
      push_cast
      rfl

/-- The digits of a printed number. -/
theorem filter_fixed (places : ℕ) (x : ℚ) : (fixed places x).filter Char.isDigit =
    digits 1 (units places x / 10 ^ places) ++ digits places (units places x % 10 ^ places) := by
  have hkeep : ∀ k n, (digits k n).filter Char.isDigit = digits k n := fun k n =>
    List.filter_eq_self.mpr fun c => isDigit_of_mem_digits
  have hsign : (if x < 0 then ['-'] else []).filter Char.isDigit = [] := by
    split
    · rfl
    · rfl
  rw [fixed, List.filter_append, List.filter_append, hsign, List.nil_append, hkeep,
    List.filter_cons_of_neg (by decide), hkeep]

/-- The places of a printed number. -/
theorem length_places_fixed (places : ℕ) (x : ℚ) :
    (((fixed places x).dropWhile (· ≠ '.')).drop 1).length = places := by
  have hfront : ∀ c ∈ (if x < 0 then ['-'] else []) ++ digits 1 (units places x / 10 ^ places),
      decide (c ≠ '.') = true := by
    rintro c hc
    refine decide_eq_true ?_
    rintro rfl
    rcases List.mem_append.mp hc with hc | hc
    · split at hc
      · exact absurd hc (by decide)
      · cases hc
    · exact absurd (isDigit_of_mem_digits hc) (by decide)
  rw [fixed, List.dropWhile_append_of_pos hfront, List.dropWhile_cons_of_neg (by decide),
    List.drop_one, List.tail_cons, length_digits_of_lt (Nat.mod_lt _ (by positivity))]

/-- The minus sign stands for a number below zero. -/
theorem head?_fixed (places : ℕ) (x : ℚ) : (fixed places x).head? = some '-' ↔ x < 0 := by
  rw [fixed]
  by_cases hneg : x < 0
  · rw [if_pos hneg]
    exact iff_of_true rfl hneg
  · obtain ⟨c, s, hs⟩ := List.exists_cons_of_ne_nil (digits_ne_nil (units places x / 10 ^ places))
    have hc : c.isDigit = true := isDigit_of_mem_digits (hs ▸ List.mem_cons_self)
    rw [if_neg hneg, List.nil_append, hs]
    refine iff_of_false (fun h => ?_) hneg
    obtain rfl : c = '-' := Option.some.inj h
    cases hc

/-- **The number that is read in plain decimal notation** is the one that was printed. -/
theorem decimal_fixed (places : ℕ) (x : ℚ) : decimal (fixed places x) = rounded places x := by
  have hfold := foldl_eq_valueFrom 0 ((fixed places x).filter Char.isDigit)
  have hlength : (digits places (units places x % 10 ^ places)).length = places :=
    length_digits_of_lt (Nat.mod_lt _ (by positivity))
  rw [filter_fixed, valueFrom_append, valueFrom_digits, valueFrom_digits, hlength, Nat.zero_mul,
    Nat.zero_add, Nat.mul_comm, Nat.div_add_mod, Nat.cast_zero] at hfold
  rw [decimal, rounded]
  simp only [length_places_fixed, head?_fixed, filter_fixed, hfold]

/-! ### Records -/

/-- A text without a NUL is a C string. -/
theorem cString_of_nonzero {s : List Char} (h : '\x00' ∉ s) : cString s = s := by
  refine List.takeWhile_eq_self_iff.mpr fun c hc => decide_eq_true ?_
  rintro rfl
  exact h hc

/-- The characters of a record. -/
theorem mem_recordText {x : ℚ × ℚ} {c : Char} (hc : c ∈ recordText x) :
    c ∈ "<, >-.".toList ∨ c.isDigit = true := by
  rw [recordText] at hc
  simp only [List.cons_append, List.mem_cons, List.mem_append] at hc
  rcases hc with rfl | ((hc | hc) | hc) | hc
  · exact Or.inl (by decide)
  · rcases mem_fixed hc with rfl | rfl | hc
    · exact Or.inl (by decide)
    · exact Or.inl (by decide)
    · exact Or.inr hc
  · exact Or.inl ((by decide : ", ".toList ⊆ "<, >-.".toList) hc)
  · rcases mem_fixed hc with rfl | rfl | hc
    · exact Or.inl (by decide)
    · exact Or.inl (by decide)
    · exact Or.inr hc
  · exact Or.inl ((by decide : ">".toList ⊆ "<, >-.".toList) hc)

/-- What `sscanf` finds in the record of a pair. -/
def scanned {R : Type*} (number : List Char → R) (x : ℚ × ℚ) : R × R :=
  (number (fixed 4 x.1), number (fixed 4 x.2))

/-- The line of a pair. -/
def recordLine (x : ℚ × ℚ) : List Char := recordText x ++ ['\n']

/-- **The line of a pair is a record.** -/
theorem record_recordLine {R : Type*} (number : List Char → R) (x : ℚ × ℚ) :
    record number (recordLine x) = some (scanned number x) := by
  have hnonzero : '\x00' ∉ recordLine x := by
    rw [recordLine, List.mem_append, not_or]
    exact ⟨fun h => absurd (mem_recordText h) (by decide), by decide⟩
  have hline : recordLine x =
      '<' :: (fixed 4 x.1 ++ ',' :: ' ' :: (fixed 4 x.2 ++ '>' :: ['\n'])) := by
    rw [recordLine, recordText]
    simp
  have hspace : (' ' :: (fixed 4 x.2 ++ '>' :: ['\n'])).dropWhile isspace =
      fixed 4 x.2 ++ '>' :: ['\n'] := dropWhile_fixed 4 x.2 _
  rw [record, sscanf, cString_of_nonzero hnonzero, hline]
  simp only [scanFloat_fixed 4 x.1 (c := ',') rfl, hspace, scanFloat_fixed 4 x.2 (c := '>') rfl,
    Option.map_some, scanned]

/-! ### Lines -/

/-- The comment lines. -/
def header (dev : DeviceName) : List (List Char) :=
  ["# ADALM1000 calibration file".toList, "# Device: ".toList ++ dev.str, []]

/-- The lines of a section. -/
def sectionLines (i : Fin 8) (d : Readings) : List (List Char) :=
  ["# ".toList ++ cal_str_map i, "</>".toList] ++ d.pairs.map recordText ++ ["<\\>".toList, []]

/-- The lines of the file. -/
def fileLines (dev : DeviceName) (d : Fin 8 → Readings) : List (List Char) :=
  header dev ++ (List.finRange 8).flatMap fun i => sectionLines i (d i)

/-- Joining lines is ending each. -/
theorem intercalate_append {ls : List (List Char)} (h : ls ≠ []) (s : List Char) :
    ['\n'].intercalate ls ++ '\n' :: s = ls.flatMap (· ++ ['\n']) ++ s := by
  induction ls with
  | nil => exact absurd rfl h
  | cons l ls ih =>
      rcases ls with - | ⟨l', ls⟩
      · simp
      · rw [List.intercalate_cons_cons, List.append_assoc, List.append_assoc,
          ih (List.cons_ne_nil l' ls), List.flatMap_cons (x := l)]
        simp

/-- A section is its lines. -/
theorem sectionText_eq (i : Fin 8) (d : Readings) :
    sectionText i d = (sectionLines i d).flatMap (· ++ ['\n']) := by
  have hne : d.pairs.map recordText ≠ [] := fun h => d.ne_nil (List.map_eq_nil_iff.mp h)
  have hend : "\n<\\>\n\n".toList = '\n' :: "<\\>\n\n".toList := rfl
  rw [sectionText, sectionLines, hend, List.append_assoc, intercalate_append hne]
  simp

/-- The file is its lines. -/
theorem cal_file_eq (dev : DeviceName) (d : Fin 8 → Readings) :
    cal_file dev d = (fileLines dev d).flatMap (· ++ ['\n']) := by
  unfold cal_file fileLines header
  simp only [List.flatMap_append, List.flatMap_assoc, sectionText_eq]
  simp

/-- The name of a device fits a line of the file. -/
theorem length_str_le (dev : DeviceName) : dev.str.length ≤ 112 := by
  have hserial := dev.serial.short
  have hfwver := dev.fwver.short
  have hhwver := dev.hwver.short
  unfold DeviceName.str
  simp only [List.length_append]
  have h7 : "serial ".toList.length = 7 := rfl
  have h6 : " : fw ".toList.length = 6 ∧ " : hw ".toList.length = 6 := ⟨rfl, rfl⟩
  omega

/-- The characters of the name. -/
theorem mem_str {dev : DeviceName} {c : Char} (hc : c ∈ dev.str) :
    c ∈ "serial : fw hw".toList ∨ c ∈ dev.serial.text ∨ c ∈ dev.fwver.text ∨
      c ∈ dev.hwver.text := by
  unfold DeviceName.str at hc
  simp only [List.mem_append] at hc
  rcases hc with ((((hc | hc) | hc) | hc) | hc) | hc
  · exact Or.inl ((by decide : "serial ".toList ⊆ "serial : fw hw".toList) hc)
  · exact Or.inr (Or.inl hc)
  · exact Or.inl ((by decide : " : fw ".toList ⊆ "serial : fw hw".toList) hc)
  · exact Or.inr (Or.inr (Or.inl hc))
  · exact Or.inl ((by decide : " : hw ".toList ⊆ "serial : fw hw".toList) hc)
  · exact Or.inr (Or.inr (Or.inr hc))

/-- It has no line break. -/
theorem not_newline_mem_str (dev : DeviceName) : '\n' ∉ dev.str := by
  intro h
  rcases mem_str h with h | h | h | h
  · exact absurd h (by decide)
  · exact dev.serial.line h
  · exact dev.fwver.line h
  · exact dev.hwver.line h

/-- Every line of the file fits the buffer of `fgets`. -/
theorem line_of_mem_fileLines {dev : DeviceName} {d : Fin 8 → Readings} {line : List Char}
    (h : line ∈ fileLines dev d) : '\n' ∉ line ∧ line.length < 127 := by
  rw [fileLines, List.mem_append, List.mem_flatMap] at h
  rcases h with h | ⟨i, -, h⟩
  · simp only [header, List.mem_cons, List.not_mem_nil, or_false] at h
    rcases h with rfl | rfl | rfl
    · decide
    · have hlength := length_str_le dev
      rw [List.mem_append, not_or, List.length_append]
      have h10 : "# Device: ".toList.length = 10 := rfl
      exact ⟨⟨by decide, not_newline_mem_str dev⟩, by omega⟩
    · decide
  · simp only [sectionLines, List.mem_append, List.mem_cons, List.mem_map, List.not_mem_nil,
      or_false] at h
    rcases h with ((rfl | rfl) | ⟨x, hx, rfl⟩) | (rfl | rfl)
    · revert i
      decide
    · decide
    · obtain ⟨hfirst, hsecond⟩ := (d i).small x hx
      refine ⟨fun hc => absurd (mem_recordText hc) (by decide), ?_⟩
      have h1 := length_fixed_le hfirst
      have h2 := length_fixed_le hsecond
      have hrest : ", ".toList.length = 2 ∧ ">".toList.length = 1 := ⟨rfl, rfl⟩
      rw [recordText]
      simp only [List.length_append, List.length_cons]
      omega
    · decide
    · decide

/-- **The lines of the file** are read as they were written. -/
theorem lines_cal_file (dev : DeviceName) (d : Fin 8 → Readings) :
    lines (cal_file dev d) = (fileLines dev d).map (· ++ ['\n']) := by
  rw [lines, cal_file_eq]
  exact SectionedText.pieces_flatMap_line '\n' fun line h => line_of_mem_fileLines h

/-! ### Sections -/

/-- The comment in front of a section. -/
def sectionComment (i : Fin 8) : List Char := "# ".toList ++ cal_str_map i ++ ['\n']

/-- The lines of a section behind its comment. -/
theorem map_sectionLines (i : Fin 8) (d : Readings) :
    (sectionLines i d).map (· ++ ['\n']) =
      sectionComment i :: "</>\n".toList :: ((d.pairs.map recordLine ++ ["<\\>\n".toList]) ++
        [['\n']]) := by
  unfold sectionLines
  simp only [List.map_append, List.map_map]
  simp [sectionComment, recordLine, Function.comp_def]

/-- A record does not close its section. -/
theorem not_closes_recordLine (x : ℚ × ℚ) : closes (recordLine x) = false := by
  rw [closes, strstr, decide_eq_false_iff_not]
  intro h
  have hmem : '\\' ∈ recordLine x :=
    (List.takeWhile_prefix _).subset (h.subset (by decide : '\\' ∈ ['<', '\\', '>']))
  rw [recordLine, List.mem_append] at hmem
  rcases hmem with hmem | hmem
  · exact absurd (mem_recordText hmem) (by decide)
  · exact absurd hmem (by decide)

/-- The comment of a section does not open one. -/
theorem not_opens_sectionComment : ∀ i, opens (sectionComment i) = false := by decide

/-- Nor does it close one. -/
theorem not_closes_sectionComment : ∀ i, closes (sectionComment i) = false := by decide

/-- The line that names the device. -/
def deviceLine (dev : DeviceName) : List Char := "# Device: ".toList ++ dev.str ++ ['\n']

/-- A way to take a line for the end of a section: the markers end a section that has lines, and
nothing else does. -/
structure Shuts (shuts : List (List Char) → List Char → Bool) : Prop where
  marker : ∀ sec, sec ≠ [] → shuts sec "<\\>\n".toList = true
  only : ∀ str, closes str = false → ∀ sec, shuts sec str = false

/-- The marker is what closes the sections of the file. -/
theorem shuts_closes : Shuts fun _ str => closes str where
  marker _ _ := by decide
  only _ h _ := h

/-- Behind a record it closes those of the loop. -/
theorem shuts_loopCloses : Shuts loopCloses where
  marker sec h := by
    rw [loopCloses_of_ne_nil h]
    decide
  only str h sec := by rw [loopCloses, h, Bool.false_and]

section Reading

variable {shuts : List (List Char) → List Char → Bool} (hshuts : Shuts shuts)

include hshuts

/-- The rest of a section, from inside it. -/
theorem Shuts.foldl_rest {n : Sections (List Char)} {sec : List (List Char)}
    (h : n.current = some sec) (d : Readings) :
    ((d.pairs.map recordLine ++ ["<\\>\n".toList]) ++ [['\n']]).foldl
        (Sections.read opens shuts) n =
      ⟨n.closed ++ [sec ++ d.pairs.map recordLine], none⟩ := by
  have hbody : ∀ str ∈ d.pairs.map recordLine, ∀ sec, shuts sec str = false := by
    rintro str hstr
    obtain ⟨x, -, rfl⟩ := List.mem_map.mp hstr
    exact hshuts.only _ (not_closes_recordLine x)
  have hne : sec ++ d.pairs.map recordLine ≠ [] :=
    List.append_ne_nil_of_right_ne_nil _ fun hnil => d.ne_nil (List.map_eq_nil_iff.mp hnil)
  rw [List.foldl_append, Sections.foldl_read_shut h hbody (hshuts.marker _ hne)]
  exact Sections.foldl_read_outside rfl (by decide)

/-- One section. -/
theorem Shuts.foldl_section {n : Sections (List Char)} (h : n.current = none) (i : Fin 8)
    (d : Readings) :
    ((sectionLines i d).map (· ++ ['\n'])).foldl (Sections.read opens shuts) n =
      ⟨n.closed ++ [d.pairs.map recordLine], none⟩ := by
  have hopen : opens "</>\n".toList = true := by decide
  rw [map_sectionLines, List.foldl_cons, List.foldl_cons, Sections.read_of_none h,
    not_opens_sectionComment, if_neg Bool.false_ne_true, Sections.read_of_none h, hopen,
    if_pos rfl, hshuts.foldl_rest rfl, List.nil_append]

/-- **The sections of the file**, from any place outside them. -/
theorem Shuts.foldl_sections {n : Sections (List Char)} (h : n.current = none)
    (d : Fin 8 → Readings) (is : List (Fin 8)) :
    ((is.flatMap fun i => sectionLines i (d i)).map (· ++ ['\n'])).foldl
        (Sections.read opens shuts) n =
      ⟨n.closed ++ is.map fun i => (d i).pairs.map recordLine, none⟩ := by
  induction is generalizing n with
  | nil =>
      rw [List.map_nil, List.append_nil, ← h]
      rfl
  | cons i is ih =>
      rw [List.flatMap_cons, List.map_append, List.foldl_append, hshuts.foldl_section h, ih rfl,
        List.map_cons, List.append_assoc, List.singleton_append]

variable {dev : DeviceName} (d : Fin 8 → Readings)

/-- The file, when the name of the device does not look like the start of a section. -/
theorem Shuts.of_lines (hdev : opens (deviceLine dev) = false) :
    Sections.of opens shuts (lines (cal_file dev d)) =
      ⟨(List.finRange 8).map fun i => (d i).pairs.map recordLine, none⟩ := by
  have hheader : ∀ str ∈ (header dev).map (· ++ ['\n']), opens str = false := by
    intro str hstr
    simp only [header, List.map_cons, List.map_nil, List.mem_cons, List.not_mem_nil,
      or_false] at hstr
    rcases hstr with rfl | rfl | rfl
    · decide
    · exact hdev
    · decide
  rw [Sections.of, lines_cal_file, fileLines, List.map_append, List.foldl_append,
    Sections.foldl_read_outside rfl hheader, hshuts.foldl_sections rfl, List.nil_append]

/-- The lines that come first in a section that the name of the device opens, in front of the
readings of this section. -/
def mistaken (i : Fin 8) : List (List Char) := [['\n'], sectionComment i, "</>\n".toList]

/-- The file, when it does. -/
theorem Shuts.of_lines_mistaken (hdev : opens (deviceLine dev) = true) :
    Sections.of opens shuts (lines (cal_file dev d)) =
      ⟨(mistaken 0 ++ (d 0).pairs.map recordLine) ::
        (List.finRange 7).map fun i => (d i.succ).pairs.map recordLine, none⟩ := by
  have hfirst : opens ("# ADALM1000 calibration file".toList ++ ['\n']) = false := by decide
  have hheader : ((header dev).map (· ++ ['\n'])).foldl (Sections.read opens shuts) ⟨[], none⟩ =
      ⟨[], some [['\n']]⟩ := by
    have hdevice : (header dev).map (· ++ ['\n']) =
        ["# ADALM1000 calibration file".toList ++ ['\n'], deviceLine dev, ['\n']] := rfl
    have hcomment : Sections.read opens shuts ⟨[], none⟩
        ("# ADALM1000 calibration file".toList ++ ['\n']) = ⟨[], none⟩ := by
      rw [Sections.read_of_none rfl, hfirst, if_neg Bool.false_ne_true]
    have hopened : Sections.read opens shuts ⟨[], none⟩ (deviceLine dev) = ⟨[], some []⟩ := by
      rw [Sections.read_of_none rfl, hdev, if_pos rfl]
    rw [hdevice, List.foldl_cons, List.foldl_cons, List.foldl_cons, List.foldl_nil, hcomment,
      hopened, Sections.read_of_not_shuts rfl (hshuts.only _ (by decide) _), List.nil_append]
  have hmarker : closes "</>\n".toList = false := by decide
  rw [Sections.of, lines_cal_file, fileLines, List.map_append, List.foldl_append, hheader,
    List.finRange_succ, List.flatMap_cons, List.map_append, List.foldl_append,
    map_sectionLines, List.foldl_cons, List.foldl_cons,
    Sections.read_of_not_shuts rfl (hshuts.only _ (not_closes_sectionComment 0) _),
    Sections.read_of_not_shuts rfl (hshuts.only _ hmarker _), hshuts.foldl_rest rfl,
    hshuts.foldl_sections rfl, List.nil_append, List.map_map]
  rfl

end Reading

/-! ### The name of the device -/

/-- None of the texts that name the device has the marker of a section. -/
def DeviceName.Unmarked (dev : DeviceName) : Prop :=
  ∀ t ∈ [dev.serial, dev.fwver, dev.hwver], ¬"</>".toList <:+: t.text

instance (dev : DeviceName) : Decidable dev.Unmarked :=
  inferInstanceAs (Decidable (∀ t ∈ [dev.serial, dev.fwver, dev.hwver], ¬"</>".toList <:+: t.text))

/-- **The line of the device opens a section** when one of its texts has the marker. -/
theorem opens_deviceLine_iff (dev : DeviceName) :
    opens (deviceLine dev) = false ↔ dev.Unmarked := by
  have hnonzero : '\x00' ∉ deviceLine dev := by
    unfold deviceLine
    rw [List.mem_append, List.mem_append, not_or, not_or]
    refine ⟨⟨by decide, fun h => ?_⟩, by decide⟩
    rcases mem_str h with h | h | h | h
    · exact absurd h (by decide)
    · exact dev.serial.nonzero h
    · exact dev.fwver.nonzero h
    · exact dev.hwver.nonzero h
  have hline : deviceLine dev = "# Device: serial".toList ++ ' ' :: (dev.serial.text ++ ' ' ::
      (": fw".toList ++ ' ' :: (dev.fwver.text ++ ' ' :: (": hw".toList ++ ' ' ::
        (dev.hwver.text ++ '\n' :: []))))) := by
    unfold deviceLine DeviceName.str
    simp
  have hspace : ' ' ∉ ['<', '/', '>'] := by decide
  have hnewline : '\n' ∉ ['<', '/', '>'] := by decide
  have hfixed : ¬['<', '/', '>'] <:+: "# Device: serial".toList ∧
      ¬['<', '/', '>'] <:+: ": fw".toList ∧ ¬['<', '/', '>'] <:+: ": hw".toList ∧
        ¬['<', '/', '>'] <:+: [] := by decide
  obtain ⟨hhead, hfw, hhw, hnil⟩ := hfixed
  rw [opens, strstr, decide_eq_false_iff_not, cString_of_nonzero hnonzero, hline,
    SectionedText.infix_append_cons_iff hspace, SectionedText.infix_append_cons_iff hspace,
    SectionedText.infix_append_cons_iff hspace, SectionedText.infix_append_cons_iff hspace,
    SectionedText.infix_append_cons_iff hspace, SectionedText.infix_append_cons_iff hnewline]
  simp only [hhead, hfw, hhw, hnil, false_or, or_false, not_or]
  simp only [DeviceName.Unmarked, List.forall_mem_cons, List.not_mem_nil, false_imp_iff,
    implies_true, and_true]
  exact Iff.rfl

/-! ### What is read -/

section Calls

variable {R : Type*} (number : List Char → R) {dev : DeviceName} (d : Fin 8 → Readings)

/-- The pairs that are read. -/
def read_pairs : List (List (R × R)) :=
  (List.finRange 8).map fun i => (d i).pairs.map (scanned number)

/-- The file is clean, and has the shape that is asked for. -/
theorem clean_and_shape (hdev : dev.Unmarked) :
    Clean number (cal_file dev d) ∧ Shape number (cal_file dev d) ∧
      (fileSections (cal_file dev d)).closed.map (sectionRecords number) =
        read_pairs number d := by
  have hsections := shuts_closes.of_lines d ((opens_deviceLine_iff dev).mpr hdev)
  rw [← fileSections] at hsections
  have hrecords : ∀ i, sectionRecords number ((d i).pairs.map recordLine) =
      (d i).pairs.map (scanned number) := by
    intro i
    rw [sectionRecords, List.filterMap_map]
    exact List.filterMap_eq_map_iff_forall_eq_some.mpr fun x _ => record_recordLine number x
  refine ⟨⟨?_, ?_⟩, ⟨?_, ?_, ?_⟩, ?_⟩
  · rw [hsections]
  · rw [hsections]
    rintro sec hsec
    obtain ⟨i, -, rfl⟩ := List.mem_map.mp hsec
    refine ⟨fun hnil => (d i).ne_nil (List.map_eq_nil_iff.mp hnil), fun str hstr => ?_⟩
    obtain ⟨x, -, rfl⟩ := List.mem_map.mp hstr
    rw [record_recordLine]
    rfl
  · rw [hsections, List.length_map, List.length_finRange]
  · rw [hsections]
  · rw [hsections]
    rintro sec hsec
    obtain ⟨i, -, rfl⟩ := List.mem_map.mp hsec
    rw [hrecords, List.length_map]
    exact ⟨List.length_pos_of_ne_nil (d i).ne_nil, (d i).length_le⟩
  · rw [hsections, List.map_map]
    exact List.map_congr_left fun i _ => hrecords i

variable [Zero R] [One R] [Add R] [Sub R] [Div R] [NatCast R] [LT R] [DecidableLT R]

/-- The calibration of the readings of a section. -/
def Readings.cal (d : Readings) : SectionCal R :=
  sectionCal (scanned number (d.pairs.head d.ne_nil)) (d.pairs.tail.map (scanned number))

/-- A call has calibrated the device with the readings. -/
structure Calibrates (answer : ℤ) (out : Outcome R) : Prop where
  used : out.used = read_pairs number d
  entry : ∀ i, out.m_cal.entry i = (d i).cal number
  sent : out.sent = some out.m_cal
  ret : 0 ≤ answer → out.ret = 0

variable (stack : (ℕ → R) × (ℕ → R)) (answer : ℤ) (m_cal : StoredCal R)

/-- Without a marker in the name the readings calibrate the device. -/
theorem calibrates_of_unmarked (hdev : dev.Unmarked) : ∃ out,
    write_calibration number stack answer (.file (cal_file dev d)) m_cal = some out ∧
      Calibrates number d answer out := by
  obtain ⟨hclean, hshape, hrecords⟩ := clean_and_shape number d hdev
  have hreaches := reachesWrite_of_shape hclean hshape
  obtain ⟨out, hout, hsent⟩ := (sent_iff_reachesWrite number stack answer m_cal).mpr hreaches
  have huses := used_eq_records hclean hout hsent
  have hused : out.used = read_pairs number d := huses.used.trans hrecords
  refine ⟨out, hout, hused, fun i => ?_, huses.sent, ret_of_reachesWrite hreaches hout⟩
  obtain ⟨x, xs, hx⟩ := List.exists_cons_of_ne_nil (d i).ne_nil
  have hfirst : out.used[i.val]? = some (scanned number x :: xs.map (scanned number)) := by
    have hi : i.val < (List.finRange 8).length := by rw [List.length_finRange]; exact i.isLt
    rw [hused, read_pairs, List.getElem?_map, List.getElem?_eq_getElem hi, List.getElem_finRange,
      Option.map_some, Fin.cast_mk, hx, List.map_cons]
  rw [entry_of_used hout hfirst, Readings.cal]
  simp only [hx, List.head_cons, List.tail_cons]

/-- With a marker the pairs that are read are others. -/
theorem unmarked_of_used {out : Outcome R}
    (hout : write_calibration number stack answer (.file (cal_file dev d)) m_cal = some out)
    (hused : out.used = read_pairs number d) : dev.Unmarked := by
  by_contra hmarked
  have hopen : opens (deviceLine dev) = true :=
    Bool.not_eq_false _ |>.mp fun h => hmarked ((opens_deviceLine_iff dev).mp h)
  have hsections := shuts_loopCloses.of_lines_mistaken d hopen
  rw [← loopSections] at hsections
  obtain ⟨t, ht, rfl⟩ := Option.map_eq_some_iff.mp hout
  have hreads := (reads_of_run number stack m_cal ht).used
  have hpairs : t.used = read_pairs number d := (used_write_cal _ _ _ _).symm.trans hused
  rw [hsections, hpairs, read_pairs, List.finRange_succ (n := 7), List.map_cons] at hreads
  have hlength := (List.forall₂_cons.mp hreads).1.length_eq
  simp only [mistaken, List.length_append, List.length_map, List.length_cons, List.length_nil]
    at hlength
  omega

/-- **The calibration is that of the readings** exactly when none of the texts that name the device
has the marker of a section. -/
theorem readings_used_iff (number : List Char → R) (stack : (ℕ → R) × (ℕ → R)) (answer : ℤ)
    (m_cal : StoredCal R) (dev : DeviceName) (d : Fin 8 → Readings) :
    (∃ out, write_calibration number stack answer (.file (cal_file dev d)) m_cal = some out ∧
        Calibrates number d answer out) ↔ dev.Unmarked :=
  ⟨fun ⟨_, hout, hcal⟩ => unmarked_of_used number d stack answer m_cal hout hcal.used,
    calibrates_of_unmarked number d stack answer m_cal⟩

end Calls

/-- **The readings are rounded to four places**, and that is all that happens to them. -/
theorem readings_rounded_iff (stack : (ℕ → ℚ) × (ℕ → ℚ)) {answer : ℤ} (hanswer : 0 ≤ answer)
    (m_cal : StoredCal ℚ) (dev : DeviceName) (d : Fin 8 → Readings) :
    (∃ out, write_calibration decimal stack answer (.file (cal_file dev d)) m_cal = some out ∧
        out.ret = 0 ∧ out.sent = some out.m_cal ∧
        out.used = (List.finRange 8).map fun i =>
          (d i).pairs.map fun x => (rounded 4 x.1, rounded 4 x.2)) ↔ dev.Unmarked := by
  have hscanned : scanned decimal = fun x => (rounded 4 x.1, rounded 4 x.2) :=
    funext fun x => Prod.ext (decimal_fixed 4 x.1) (decimal_fixed 4 x.2)
  rw [← hscanned, ← read_pairs]
  constructor
  · rintro ⟨out, hout, -, -, hused⟩
    exact unmarked_of_used decimal d stack answer m_cal hout hused
  · intro hdev
    obtain ⟨out, hout, hcal⟩ := calibrates_of_unmarked decimal d stack answer m_cal hdev
    exact ⟨out, hout, hcal.ret hanswer, hcal.sent, hcal.used⟩

end CalibrationRun

end Libsmu
