import Mathlib.Data.List.GetD
import Mathlib.Data.Nat.Digits.Lemmas

/-!
# Numbers in Hexadecimal

Numbers printed with capital hexadecimal digits, at least as many as a precision says, and
read back.

## Main results

* `read_format`: what is printed is read back.
* `length_format_of_lt`, `lt_length_format`: a number is printed with the digits of the
  precision where these suffice for it, and with more otherwise.
-/

namespace HexText

/-- The digits. -/
def alphabet : List Char := "0123456789ABCDEF".toList

/-- The digit of a number. -/
def digit (d : ℕ) : Char := alphabet.getD d '0'

/-- The number of a digit. -/
def value (c : Char) : Option ℕ := if c ∈ alphabet then some (alphabet.idxOf c) else none

/-- A number with `k` digits at least. -/
def format (k n : ℕ) : List Char := ((Nat.digits 16 n).reverse.leftpad k 0).map digit

/-- The number that digits say. -/
def read (s : List Char) : Option ℕ := (s.mapM value).map fun ds => Nat.ofDigits 16 ds.reverse

/-- The digits are different. -/
theorem nodup_alphabet : alphabet.Nodup := by decide

/-- A digit is read as its value. -/
theorem value_digit {d : ℕ} (hd : d < 16) : value (digit d) = some d := by
  have hlength : d < alphabet.length := hd
  have hdigit : digit d = alphabet[d] := List.getD_eq_getElem _ _ hlength
  rw [value, hdigit, if_pos (List.getElem_mem hlength), nodup_alphabet.idxOf_getElem]

/-- So are the digits of a word. -/
theorem mapM_value {ds : List ℕ} (hds : ∀ d ∈ ds, d < 16) :
    (ds.map digit).mapM value = some ds := by
  induction ds with
  | nil => rfl
  | cons d ds ih =>
      rw [List.forall_mem_cons] at hds
      simp [value_digit hds.1, ih hds.2]

/-- The digits of a padded number are digits. -/
theorem lt_of_mem_leftpad {k n d : ℕ} (hd : d ∈ (Nat.digits 16 n).reverse.leftpad k 0) :
    d < 16 := by
  rw [List.leftpad, List.mem_append, List.mem_replicate, List.mem_reverse] at hd
  rcases hd with ⟨-, rfl⟩ | hd
  · omega
  · exact Nat.digits_lt_base (by omega) hd

/-- **What is printed is read back.** -/
theorem read_format (k n : ℕ) : read (format k n) = some n := by
  rw [read, format, mapM_value fun d hd => lt_of_mem_leftpad hd, Option.map_some, List.leftpad,
    List.reverse_append, List.reverse_reverse, List.reverse_replicate,
    Nat.ofDigits_append_replicate_zero, Nat.ofDigits_digits]

/-- Each character that is read is one digit. -/
theorem length_of_mapM {s : List Char} {ds : List ℕ} (h : s.mapM value = some ds) :
    ds.length = s.length := by
  induction s generalizing ds with
  | nil =>
      obtain rfl := Option.some.inj h
      rfl
  | cons c s ih =>
      rw [List.mapM_cons, Option.bind_eq_bind, Option.bind_eq_some_iff] at h
      obtain ⟨d, -, hrest⟩ := h
      rw [Option.bind_eq_bind, Option.bind_eq_some_iff] at hrest
      obtain ⟨es, hes, hds⟩ := hrest
      obtain rfl := Option.some.inj hds
      rw [List.length_cons, List.length_cons, ih hes]

/-- Digits after digits. -/
theorem read_append {s t : List Char} {m n : ℕ} (hs : read s = some m) (ht : read t = some n) :
    read (s ++ t) = some (m * 16 ^ t.length + n) := by
  rw [read, Option.map_eq_some_iff] at hs ht
  obtain ⟨ds, hds, rfl⟩ := hs
  obtain ⟨es, hes, rfl⟩ := ht
  have hlength : es.length = t.length := length_of_mapM hes
  rw [read, List.mapM_append, hds, hes]
  simp only [Option.pure_def, Option.bind_eq_bind, Option.bind_some, Option.map_some,
    List.reverse_append, Nat.ofDigits_append, List.length_reverse, hlength]
  rw [Nat.add_comm, Nat.mul_comm]

/-- Nothing but digits is printed. -/
theorem mem_alphabet_of_mem_format {k n : ℕ} {c : Char} (hc : c ∈ format k n) : c ∈ alphabet := by
  rw [format, List.mem_map] at hc
  obtain ⟨d, hd, rfl⟩ := hc
  have hlength : d < alphabet.length := lt_of_mem_leftpad hd
  rw [digit, List.getD_eq_getElem _ _ hlength]
  exact List.getElem_mem hlength

/-! ### How many digits -/

/-- The length of a formatted number. -/
theorem length_format (k n : ℕ) : (format k n).length = max k (Nat.digits 16 n).length := by
  rw [format, List.length_map, List.length_leftpad, List.length_reverse]

/-- A number that fits has the width asked for. -/
theorem length_format_of_lt {k n : ℕ} (h : n < 16 ^ k) : (format k n).length = k := by
  rw [length_format, max_eq_left ((Nat.digits_length_le_iff (by omega) n).2 h)]

/-- One that does not is longer. -/
theorem lt_length_format {k n : ℕ} (h : 16 ^ k ≤ n) : k < (format k n).length := by
  have hlt : ¬(Nat.digits 16 n).length ≤ k := by
    rw [Nat.digits_length_le_iff (by omega)]
    exact h.not_gt
  rw [length_format, lt_max_iff]
  exact .inr (not_le.1 hlt)

end HexText
