import Libsmu.Lib.HexText

/-!
# The SAM-BA Commands

The firmware is written by commands in text that `flash_device` formats into a buffer of 20
bytes: a word for an address, or the flash command that writes a page. The format of the first
prints two numbers of 32 bits with 8 digits, which fills the buffer. That of the second prints
the page with two digits at least.

## Main results

* `wellFormed_word`: every word is read back.
* `wellFormed_page_iff`: a page is read back exactly when its number has two digits.
-/

namespace Libsmu

namespace Samba

open HexText

/-- `snprintf`: what is left of a text in a buffer that also holds the end of the string. -/
def snprintf (size : ℕ) (text : List Char) : List Char := text.take (size - 1)

/-- `flashbase`. -/
def flashbase : ℕ := 0x80000

/-- The commands that `flash_device` formats. -/
inductive Command
  | word (pos data : ℕ)
  | page (page : ℕ)
  deriving DecidableEq, Repr

namespace Command

/-- What the format prints. -/
def text : Command → List Char
  | .word pos data =>
    'W' :: (format 8 ((flashbase + pos) % 2 ^ 32) ++ ',' :: (format 8 data ++ ['#']))
  | .page k => "W400E0804,5A00".toList ++ (format 2 k ++ "03#".toList)

/-- `cmd`. -/
def cmd (c : Command) : List Char := snprintf 20 c.text

/-- The address and the value that the command is to write. -/
def intended : Command → ℕ × ℕ
  | .word pos data => (0x80000 + pos, data)
  | .page k => (0x400E0804, 0x5A000003 + k <<< 8)

end Command

/-- The command that writes a value to an address: `W`, 8 digits, a comma, 8 digits and `#`. -/
def read_command (s : List Char) : Option (ℕ × ℕ) :=
  if s.length = 19 ∧ s[0]? = some 'W' ∧ s[9]? = some ',' ∧ s[18]? = some '#' then
    (read ((s.drop 1).take 8)).bind fun addr =>
      (read ((s.drop 10).take 8)).map fun value => (addr, value)
  else none

/-- **A command that does what it is to do**: all of it is in the buffer, and it is read back. -/
structure Command.WellFormed (c : Command) : Prop where
  fits : c.cmd = c.text
  reads : read_command c.cmd = some c.intended

/-! ### Reading a command -/

theorem read_command_of_parts {a v : List Char} {m n : ℕ} (ha : a.length = 8)
    (hv : v.length = 8) (hm : read a = some m) (hn : read v = some n) :
    read_command ('W' :: (a ++ ',' :: (v ++ ['#']))) = some (m, n) := by
  have haddr : (('W' :: (a ++ ',' :: (v ++ ['#']))).drop 1).take 8 = a := by
    rw [List.drop_one, List.tail_cons, List.take_left' ha]
  have hvalue : (('W' :: (a ++ ',' :: (v ++ ['#']))).drop 10).take 8 = v := by
    have hsplit : 'W' :: (a ++ ',' :: (v ++ ['#'])) = ('W' :: (a ++ [','])) ++ (v ++ ['#']) := by
      simp
    rw [hsplit, List.drop_left' (by simp [ha]), List.take_left' hv]
  rw [read_command, haddr, hvalue, hm, hn, if_pos]
  · rfl
  · refine ⟨by simp [ha, hv], rfl, ?_, ?_⟩
    · rw [List.getElem?_cons_succ, List.getElem?_append_right ha.le, ha]
      rfl
    · rw [List.getElem?_cons_succ, List.getElem?_append_right (by omega), ha,
        List.getElem?_cons_succ, List.getElem?_append_right hv.le, hv]
      rfl

theorem two_pow_32 : 2 ^ 32 = 16 ^ 8 := by norm_num

theorem two_fifty_six : 256 = 16 ^ 2 := by norm_num

theorem cmd_of_length {c : Command} (h : c.text.length ≤ 19) : c.cmd = c.text :=
  List.take_of_length_le h

theorem text_word (pos data : ℕ) : (Command.word pos data).text =
    'W' :: (format 8 ((flashbase + pos) % 2 ^ 32) ++ ',' :: (format 8 data ++ ['#'])) := rfl

/-- The flash command with its digits in two numbers. -/
theorem text_page (k : ℕ) : (Command.page k).text =
    'W' :: ("400E0804".toList ++ ',' :: (("5A00".toList ++ (format 2 k ++ "03".toList)) ++
      ['#'])) := by
  change "W400E0804,5A00".toList ++ (format 2 k ++ "03#".toList) = _
  simp

/-- **Every word of the image is read back.** -/
theorem wellFormed_word {pos data : ℕ} (hpos : flashbase + pos < 2 ^ 32) (hdata : data < 2 ^ 32) :
    (Command.word pos data).WellFormed := by
  have haddr : (format 8 ((flashbase + pos) % 2 ^ 32)).length = 8 := by
    rw [Nat.mod_eq_of_lt hpos]
    exact length_format_of_lt (two_pow_32 ▸ hpos)
  have hvalue : (format 8 data).length = 8 := length_format_of_lt (two_pow_32 ▸ hdata)
  have hcmd : (Command.word pos data).cmd = (Command.word pos data).text := by
    apply cmd_of_length
    rw [text_word]
    simp only [List.length_cons, List.length_append, haddr, hvalue, List.length_nil]
    omega
  refine ⟨hcmd, ?_⟩
  rw [hcmd, text_word, read_command_of_parts haddr hvalue (read_format _ _) (read_format _ _),
    Nat.mod_eq_of_lt hpos]
  rfl

theorem length_text_page (k : ℕ) : (Command.page k).text.length = (format 2 k).length + 17 := by
  have haddr : "400E0804".toList.length = 8 := rfl
  have hhead : "5A00".toList.length = 4 := rfl
  have htail : "03".toList.length = 2 := rfl
  rw [text_page]
  simp only [List.length_cons, List.length_append, List.length_nil, haddr, hhead, htail]
  omega

/-- The flash command of a page with two digits. -/
theorem wellFormed_page {k : ℕ} (hk : k < 256) : (Command.page k).WellFormed := by
  have hdigits : (format 2 k).length = 2 := length_format_of_lt (two_fifty_six ▸ hk)
  have hcmd : (Command.page k).cmd = (Command.page k).text :=
    cmd_of_length (by rw [length_text_page, hdigits])
  have haddr : read "400E0804".toList = some 0x400E0804 := by decide
  have hhead : read "5A00".toList = some 0x5A00 := by decide
  have htail : read (format 2 k ++ "03".toList) = some (k * 16 ^ 2 + 3) :=
    read_append (read_format 2 k) (by decide)
  have hvalue : read ("5A00".toList ++ (format 2 k ++ "03".toList)) =
      some (0x5A000003 + k <<< 8) := by
    have hlength : (format 2 k ++ "03".toList).length = 4 := by
      rw [List.length_append, hdigits]
      rfl
    rw [read_append hhead htail, hlength, Nat.shiftLeft_eq]
    congr 1
    omega
  refine ⟨hcmd, ?_⟩
  rw [hcmd, text_page]
  refine read_command_of_parts rfl ?_ haddr hvalue
  rw [List.length_append, List.length_append, hdigits]
  rfl

/-- **With three digits the end of the command does not fit**, and there is no end to see. -/
theorem read_command_page {k : ℕ} (hk : 256 ≤ k) : read_command (Command.page k).cmd = none := by
  have hdigits : 2 < (format 2 k).length := lt_length_format (two_fifty_six ▸ hk)
  have hlast : (Command.page k).cmd[18]? ≠ some '#' := by
    have hcmd : (Command.page k).cmd[18]? = (format 2 k ++ "03#".toList)[4]? := by
      have htext : (Command.page k).text =
          "W400E0804,5A00".toList ++ (format 2 k ++ "03#".toList) := rfl
      have hhead : "W400E0804,5A00".toList.length = 14 := rfl
      rw [Command.cmd, snprintf, List.getElem?_take_of_lt (by omega), htext,
        List.getElem?_append_right (by omega), hhead]
    rw [hcmd]
    intro hend
    rcases Nat.lt_or_ge 4 (format 2 k).length with hlong | hshort
    · rw [List.getElem?_append_left hlong] at hend
      have hdigit := mem_alphabet_of_mem_format (List.mem_of_getElem? hend)
      exact absurd hdigit (by decide)
    · rw [List.getElem?_append_right hshort] at hend
      obtain h | h : 4 - (format 2 k).length = 1 ∨ 4 - (format 2 k).length = 0 := by omega
      all_goals
        rw [h] at hend
        exact absurd hend (by decide)
  exact if_neg fun h => hlast h.2.2.2

theorem wellFormed_page_iff {k : ℕ} : (Command.page k).WellFormed ↔ k < 256 := by
  refine ⟨fun h => ?_, wellFormed_page⟩
  by_contra! hk
  have hreads := h.reads
  rw [read_command_page hk] at hreads
  cases hreads

end Samba

end Libsmu
