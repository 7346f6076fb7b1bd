import Libsmu.Lib.SectionedText
import Mathlib.Data.List.Infix

/-!
# The Text of a Calibration File

`write_calibration` reads its file with `fgets` into a buffer of 128 characters, looks for the
markers of a section with `strstr` and for records with `sscanf`. A line is what one call of
`fgets` returns, so that a longer line of the file comes in several; the functions on strings
see it up to the first zero byte.

The file is meant to hold sections: a line with `</>`, records `<ref, val>` and a line with
`<\>`, among comments and blank lines (`fileSections`). The loops nest the lines in nearly the
same way: a line with `<\>` that directly follows the one that opened the section does not
close it (`loopSections`).

What a spelled number is worth is left to a function `number`, which stands for the
conversion to `float` with its rounding, infinities and NaNs.

## Main results

* `lines_of_fgets`, `flatten_lines`: the lines are what the calls of `fgets` return, and
  together they are the file.
* `sscanf_of_record`: from a record `sscanf` assigns both numbers.
-/

namespace Libsmu

/-! ### Lines -/

/-- `fgets(str, 128, fp)`: the characters it returns and those left in the file. -/
def fgets (fp : List Char) : Option (List Char × List Char) :=
  match fp with
  | [] => none
  | c :: s => some (SectionedText.takePiece '\n' 127 (c :: s))

/-- What the calls of `fgets` return until the file ends. -/
def lines (fp : List Char) : List (List Char) := SectionedText.pieces '\n' 127 fp

/-- At the end of the file there are no lines left. -/
theorem lines_of_fgets_none {fp : List Char} (h : fgets fp = none) : lines fp = [] := by
  cases fp with
  | nil => rfl
  | cons c s => cases h

/-- **The lines of a file are read by one call of `fgets` after the other.** -/
theorem lines_of_fgets {fp str rest : List Char} (h : fgets fp = some (str, rest)) :
    lines fp = str :: lines rest := by
  cases fp with
  | nil => cases h
  | cons c s =>
      rw [lines, SectionedText.pieces_of_ne_nil _ (by omega) (List.cons_ne_nil c s),
        Option.some.inj h, lines]

/-- The lines of a file are the file. -/
theorem flatten_lines (fp : List Char) : (lines fp).flatten = fp :=
  SectionedText.flatten_pieces _ (by omega) fp

/-- The C string that starts a buffer. -/
def cString (str : List Char) : List Char := str.takeWhile (· ≠ '\x00')

/-- `strstr(str, pattern)`, as a condition. -/
def strstr (str pattern : List Char) : Bool := decide (pattern <:+: cString str)

/-- `strstr(str, "</>")`. -/
def opens (str : List Char) : Bool := strstr str ['<', '/', '>']

/-- `strstr(str, "<\\>")`. -/
def closes (str : List Char) : Bool := strstr str ['<', '\\', '>']

/-! ### Numbers -/

/-- How much of a number `%f` has read. -/
inductive NumberState
  | start
  | signed
  /-- a first `0`, which `x` may follow -/
  | zero
  | digits (hex : Bool)
  /-- a decimal point that no digit comes before -/
  | point (hex : Bool)
  | fraction (hex : Bool)
  | hexPrefix
  | exponent
  | exponentSigned
  | exponentDigits
  /-- letters of `infinity` are left -/
  | infinity (rest : List Char)
  /-- letters of `nan` are left -/
  | nan (rest : List Char)
  /-- after `nan(` -/
  | payload
  | payloadEnd
  deriving DecidableEq

namespace NumberState

/-- A digit, in base 10 or 16. -/
def isDigit (hex : Bool) (c : Char) : Bool :=
  c.isDigit || (hex && (('a' ≤ c && c ≤ 'f') || ('A' ≤ c && c ≤ 'F')))

/-- The letter in front of the exponent. -/
def exponentMark (hex : Bool) (c : Char) : Bool :=
  if hex then c == 'p' || c == 'P' else c == 'e' || c == 'E'

/-- The first character after the sign. -/
def first (c : Char) : Option NumberState :=
  if c = '0' then some zero
  else if c.isDigit then some (digits false)
  else if c = '.' then some (point false)
  else if c.toLower = 'i' then some (infinity ['n', 'f', 'i', 'n', 'i', 't', 'y'])
  else if c.toLower = 'n' then some (nan ['a', 'n'])
  else none

/-- A character after digits in front of the decimal point. -/
def afterDigits (hex : Bool) (c : Char) : Option NumberState :=
  if isDigit hex c then some (digits hex)
  else if c = '.' then some (fraction hex)
  else if exponentMark hex c then some exponent
  else none

/-- One more character, if a number can go on with it. -/
def next : NumberState → Char → Option NumberState
  | start, c => if c = '+' ∨ c = '-' then some signed else first c
  | signed, c => first c
  | zero, c => if c = 'x' ∨ c = 'X' then some hexPrefix else afterDigits false c
  | hexPrefix, c =>
      if isDigit true c then some (digits true)
      else if c = '.' then some (point true)
      else none
  | digits hex, c => afterDigits hex c
  | point hex, c => if isDigit hex c then some (fraction hex) else none
  | fraction hex, c =>
      if isDigit hex c then some (fraction hex)
      else if exponentMark hex c then some exponent
      else none
  | exponent, c =>
      if c = '+' ∨ c = '-' then some exponentSigned
      else if c.isDigit then some exponentDigits
      else none
  | exponentSigned, c => if c.isDigit then some exponentDigits else none
  | exponentDigits, c => if c.isDigit then some exponentDigits else none
  | infinity [], _ => none
  | infinity (l :: rest), c => if c.toLower = l then some (infinity rest) else none
  | nan [], c => if c = '(' then some payload else none
  | nan (l :: rest), c => if c.toLower = l then some (nan rest) else none
  | payload, c =>
      if c.isAlphanum ∨ c = '_' then some payload
      else if c = ')' then some payloadEnd
      else none
  | payloadEnd, _ => none

/-- What has been read is a number. -/
def accepts : NumberState → Bool
  | zero | digits _ | fraction _ | exponentDigits | payloadEnd => true
  | infinity rest => rest == [] || rest == ['i', 'n', 'i', 't', 'y']
  | nan rest => rest == []
  | _ => false

/-- The longest text that a number can start with is read; it has to be one. -/
def scan : NumberState → List Char → Option (List Char × List Char)
  | q, [] => if q.accepts then some ([], []) else none
  | q, c :: s =>
      match q.next c with
      | none => if q.accepts then some ([], c :: s) else none
      | some q => (scan q s).map fun r => (c :: r.1, r.2)

end NumberState

/-- White space in the C locale. -/
def isspace (c : Char) : Bool := c == ' ' || ('\t' ≤ c && c ≤ '\r')

/-- The conversion `%f`: the number as it is spelled, and the text after it. -/
def scanFloat (s : List Char) : Option (List Char × List Char) :=
  NumberState.start.scan (s.dropWhile isspace)

/-! ### Records -/

variable {R : Type*} (number : List Char → R)

/-- `sscanf(str, "<%f, %f>", &ref, &val)`: what is assigned to `ref` and `val`, with the text
after the second number. -/
def sscanf (str : List Char) : Option R × Option (R × List Char) :=
  match cString str with
  | '<' :: s =>
      match scanFloat s with
      | some (ref, ',' :: s) =>
          (some (number ref),
            (scanFloat (s.dropWhile isspace)).map fun val => (number val.1, val.2))
      | some (ref, _) => (some (number ref), none)
      | none => (none, none)
  | _ => (none, none)

/-- The record of a line, if all of `<ref, val>` is there. -/
def record (str : List Char) : Option (R × R) :=
  match sscanf number str with
  | (some ref, some (val, '>' :: _)) => some (ref, val)
  | _ => none

variable {number}

/-- From a record both numbers are assigned. -/
theorem sscanf_of_record {str : List Char} {p : R × R} (h : record number str = some p) :
    ∃ s, sscanf number str = (some p.1, some (p.2, s)) := by
  rw [record] at h
  split at h
  · rename_i ref val s hscan
    obtain rfl := Option.some.inj h
    exact ⟨_, hscan⟩
  · cases h

/-! ### Sections -/

/-- The sections of a file as they are meant: from a line with `</>` to the first line with
`<\>`. -/
def fileSections (fp : List Char) : Sections (List Char) :=
  Sections.of opens (fun _ str => closes str) (lines fp)

/-- The inner loop takes a line with `<\>` for the end of the section when the section has
lines. -/
def loopCloses (sec : List (List Char)) (str : List Char) : Bool := closes str && !sec.isEmpty

/-- The sections of a file as the loops nest its lines. -/
def loopSections (fp : List Char) : Sections (List Char) :=
  Sections.of opens loopCloses (lines fp)

end Libsmu
