import Libsmu.SambaCommands
import Mathlib.Data.Nat.Bitwise

/-!
# Writing the Firmware

`flash_firmware` reads the file into new memory of a multiple of the page size, and
`flash_device` sends it word by word. The size that it pads to is always above that of the
file, and the memory is not set before the file is read into it, so that the last page sent
holds bytes that nothing has written: all of them where the file ends with a page.

## Main results

* `issues_iff`: what `flash_device` does over the bus, word by word.
* `commands_wellFormed_iff`: the images whose commands are all read back.
* `writes_eq`, `bytes_written`: the words of each page and then its flash command, with every
  byte of the file at its place.
* `not_exact`: no file is written as it is and nothing else.
-/

namespace Libsmu

namespace Samba

open HexText

/-! ### The code -/

/-- What `flash_device` does over the bus. -/
inductive Op
  | samba_write (data : String)
  | samba_format (c : Command)
  | samba_read
  deriving DecidableEq, Repr

/-- `firmware_size`, padded. -/
def firmware_size (file : List UInt8) : ℕ := file.length + (256 - file.length % 256)

/-- `fwdata`: the file, and behind it what the new memory holds. -/
def fwdata (file : List UInt8) (mem : ℕ → UInt8) (i : ℕ) : UInt8 := file.getD i (mem i)

/-- `data`. -/
def word_data (fw : ℕ → UInt8) (pos : ℕ) : ℕ :=
  (fw pos).toNat ||| (fw (pos + 1)).toNat <<< 8 ||| (fw (pos + 2)).toNat <<< 16 |||
    (fw (pos + 3)).toNat <<< 24

/-- A word. -/
def word_ops (fw : ℕ → UInt8) (pos : ℕ) : List Op :=
  [.samba_format (.word pos (word_data fw pos)), .samba_read, .samba_read]

/-- A page. -/
def page_ops (page : ℕ) : List Op :=
  [.samba_format (.page page), .samba_read, .samba_read,
    .samba_write "w400E0808,4#", .samba_read, .samba_read, .samba_read]

/-- The loop over the words. `pos` is an `int`: the loop has no meaning where it overflows. -/
def write_firmware (fw : ℕ → UInt8) (firmware_size : ℕ) : ℕ → ℕ → ℕ → List Op → Option (List Op)
  | 0, _, _, _ => none
  | fuel + 1, pos, page, ops =>
    if pos < firmware_size then
      if pos + 4 < 2 ^ 31 then
        if pos &&& 0xFC = 0xFC then
          write_firmware fw firmware_size fuel (pos + 4) ((page + 1) % 2 ^ 32)
            (ops ++ (word_ops fw pos ++ page_ops page))
        else write_firmware fw firmware_size fuel (pos + 4) page (ops ++ word_ops fw pos)
      else none
    else some ops

/-- Erasing the flash. -/
def erase_ops : List Op :=
  [.samba_write "W400E0804,5A000005#", .samba_read, .samba_write "w400E0808,4#", .samba_read,
    .samba_read, .samba_read]

/-- Leaving SAM-BA. -/
def leave_ops : List Op :=
  [.samba_write "W400E0804,5A00010B#", .samba_read, .samba_read, .samba_write "G00000000#",
    .samba_read]

/-- `flash_device`, where every transfer succeeds. -/
def flash_device (file : List UInt8) (mem : ℕ → UInt8) (fuel : ℕ) : Option (List Op) :=
  (write_firmware (fwdata file mem) (firmware_size file) fuel 0 0 []).map fun ops =>
    erase_ops ++ (ops ++ leave_ops)

/-- What the monitor understands as a write of a value to an address. -/
def Op.write : Op → Option (ℕ × ℕ)
  | .samba_write data => read_command data.toList
  | .samba_format c => read_command c.cmd
  | .samba_read => none

/-- The writes of a run, in order. -/
def writes (ops : List Op) : List (ℕ × ℕ) := ops.filterMap Op.write

/-- `flash_device` does this for a file. -/
def Issues (file : List UInt8) (mem : ℕ → UInt8) (ops : List Op) : Prop :=
  ∃ fuel, flash_device file mem fuel = some ops

/-! ### The loop -/

/-- The word at a place, and the page where it is the last one. -/
def word_step (fw : ℕ → UInt8) (i : ℕ) : List Op :=
  word_ops fw (4 * i) ++ if i % 64 = 63 then page_ops (i / 64) else []

theorem firmware_size_eq (file : List UInt8) :
    firmware_size file = 256 * (file.length / 256 + 1) := by
  rw [firmware_size]
  omega

/-- **The mask finds the last word of a page.** -/
theorem mask_eq_iff (i : ℕ) : 4 * i &&& 0xFC = 0xFC ↔ i % 64 = 63 := by
  have hmask : 4 * i &&& 0xFC = (i % 64) <<< 2 := by
    rw [← Nat.and_two_pow_sub_one_eq_mod i 6, Nat.shiftLeft_and_distrib, Nat.shiftLeft_eq,
      Nat.mul_comm i]
    rfl
  rw [hmask, Nat.shiftLeft_eq]
  omega

variable {fw : ℕ → UInt8}

variable (fw) in
/-- From a word on, with the page that it lies in, the loop sends the words that are left. -/
theorem write_firmware_eq {n : ℕ} (hn : 256 * n < 2 ^ 31) (m : ℕ) :
    ∀ (fuel i : ℕ) (ops : List Op), i + m = 64 * n →
      write_firmware fw (256 * n) fuel (4 * i) (i / 64) ops =
        if m < fuel then some (ops ++ (List.range' i m).flatMap (word_step fw)) else none := by
  induction m with
  | zero =>
      intro fuel i ops hi
      cases fuel with
      | zero => rfl
      | succ fuel =>
          rw [write_firmware, if_neg (by omega), if_pos (Nat.succ_pos fuel)]
          simp
  | succ m ih =>
      intro fuel i ops hi
      cases fuel with
      | zero => rfl
      | succ fuel =>
          have hpos : 4 * i + 4 = 4 * (i + 1) := by ring
          have hnext : i + 1 + m = 64 * n := by omega
          rw [write_firmware, if_pos (by omega), if_pos (by omega), hpos, List.range'_succ,
            List.flatMap_cons]
          simp only [mask_eq_iff, Nat.add_lt_add_iff_right]
          by_cases hlast : i % 64 = 63
          · have hpage : (i / 64 + 1) % 2 ^ 32 = (i + 1) / 64 := by omega
            rw [if_pos hlast, hpage, ih fuel (i + 1) _ hnext, word_step, if_pos hlast,
              List.append_assoc]
          · have hpage : i / 64 = (i + 1) / 64 := by omega
            rw [if_neg hlast, hpage, ih fuel (i + 1) _ hnext, word_step, if_neg hlast,
              List.append_nil, List.append_assoc]

variable (fw) in
/-- A size that `pos` cannot reach. -/
theorem write_firmware_eq_none {size : ℕ} (hsize : 2 ^ 31 ≤ size) (fuel : ℕ) :
    ∀ (pos page : ℕ) (ops : List Op), pos < 2 ^ 31 →
      write_firmware fw size fuel pos page ops = none := by
  induction fuel with
  | zero => exact fun _ _ _ _ => rfl
  | succ fuel ih =>
      intro pos page ops hpos
      rw [write_firmware, if_pos (by omega)]
      split_ifs with hnext
      · exact ih _ _ _ hnext
      · exact ih _ _ _ hnext
      · rfl

variable {file : List UInt8} {mem : ℕ → UInt8} {ops : List Op}

/-- The words of an image, and its pages. -/
def image_ops (fw : ℕ → UInt8) (pages : ℕ) : List Op :=
  (List.range (64 * pages)).flatMap (word_step fw)

/-- **What is sent for a file**: the words of one page more than it fills. -/
theorem issues_iff :
    Issues file mem ops ↔ firmware_size file < 2 ^ 31 ∧
      ops = erase_ops ++ (image_ops (fwdata file mem) (file.length / 256 + 1) ++ leave_ops) := by
  rcases Nat.lt_or_ge (firmware_size file) (2 ^ 31) with hlt | hge
  · have hloop (fuel : ℕ) := write_firmware_eq (fwdata file mem)
      (firmware_size_eq file ▸ hlt) (64 * (file.length / 256 + 1)) fuel 0 [] (Nat.zero_add _)
    simp only [← firmware_size_eq, Nat.mul_zero, Nat.zero_div, List.nil_append,
      ← List.range_eq_range'] at hloop
    simp only [Issues, flash_device, hloop, and_iff_right hlt]
    constructor
    · rintro ⟨fuel, h⟩
      split_ifs at h with hfuel
      · exact (Option.some.inj h).symm
      · cases h
    · rintro rfl
      exact ⟨_, by rw [if_pos (Nat.lt_succ_self _)]; rfl⟩
  · have hnone (fuel : ℕ) := write_firmware_eq_none (fwdata file mem) hge fuel 0 0 []
      (by norm_num)
    simp only [Issues, flash_device, hnone, Option.map_none]
    exact iff_of_false (by simp) fun h => hge.not_gt h.1

variable (mem) in
theorem exists_issues (hsize : firmware_size file < 2 ^ 31) : ∃ ops, Issues file mem ops :=
  ⟨_, issues_iff.2 ⟨hsize, rfl⟩⟩

/-- **The commands that are formatted**: each word of the image, and each page. -/
theorem mem_image_ops_iff {pages : ℕ} {c : Command} :
    .samba_format c ∈ image_ops fw pages ↔
      (∃ i < 64 * pages, c = .word (4 * i) (word_data fw (4 * i))) ∨ ∃ k < pages, c = .page k := by
  simp only [image_ops, List.mem_flatMap, List.mem_range, word_step, List.mem_append]
  constructor
  · rintro ⟨i, hi, hword | hpage⟩
    · exact .inl ⟨i, hi, by simpa [word_ops] using hword⟩
    · split_ifs at hpage with hlast
      · exact .inr ⟨i / 64, by omega, by simpa [page_ops] using hpage⟩
      · cases hpage
  · rintro (⟨i, hi, rfl⟩ | ⟨k, hk, rfl⟩)
    · exact ⟨i, hi, .inl List.mem_cons_self⟩
    · refine ⟨64 * k + 63, by omega, .inr ?_⟩
      rw [if_pos (by omega), show (64 * k + 63) / 64 = k by omega]
      exact List.mem_cons_self

theorem mem_issued_iff (h : Issues file mem ops) {c : Command} :
    .samba_format c ∈ ops ↔
      .samba_format c ∈ image_ops (fwdata file mem) (file.length / 256 + 1) := by
  obtain ⟨-, rfl⟩ := issues_iff.1 h
  simp [erase_ops, leave_ops]

/-- Bytes that are put side by side. -/
theorem or_shiftLeft {a b i : ℕ} (hb : b < 2 ^ i) : b ||| a <<< i = a * 2 ^ i + b := by
  rw [Nat.or_comm, ← Nat.shiftLeft_add_eq_or_of_lt hb, Nat.shiftLeft_eq]

/-- **A word has its bytes with the lowest first.** -/
theorem word_data_eq (pos : ℕ) : word_data fw pos =
    (fw pos).toNat + 2 ^ 8 * (fw (pos + 1)).toNat + 2 ^ 16 * (fw (pos + 2)).toNat +
      2 ^ 24 * (fw (pos + 3)).toNat := by
  have h0 := (fw pos).toNat_lt
  have h1 := (fw (pos + 1)).toNat_lt
  have h2 := (fw (pos + 2)).toNat_lt
  have h01 : (fw pos).toNat ||| (fw (pos + 1)).toNat <<< 8 =
      (fw (pos + 1)).toNat * 2 ^ 8 + (fw pos).toNat := or_shiftLeft h0
  have h012 : ((fw (pos + 1)).toNat * 2 ^ 8 + (fw pos).toNat) ||| (fw (pos + 2)).toNat <<< 16 =
      (fw (pos + 2)).toNat * 2 ^ 16 + ((fw (pos + 1)).toNat * 2 ^ 8 + (fw pos).toNat) :=
    or_shiftLeft (by omega)
  rw [word_data, h01, h012, or_shiftLeft (by omega)]
  ring

theorem word_data_lt (pos : ℕ) : word_data fw pos < 2 ^ 32 := by
  have h0 := (fw pos).toNat_lt
  have h1 := (fw (pos + 1)).toNat_lt
  have h2 := (fw (pos + 2)).toNat_lt
  have h3 := (fw (pos + 3)).toNat_lt
  rw [word_data_eq]
  omega

/-- **The images whose commands are read back.** -/
theorem commands_wellFormed_iff (file : List UInt8) (mem : ℕ → UInt8)
    (hfile : file.length ≤ 256 * 65536) :
    ∃ ops, Issues file mem ops ∧
      (∀ c, .samba_format c ∈ ops ↔
        (∃ i < 64 * (file.length / 256 + 1),
          c = .word (4 * i) (word_data (fwdata file mem) (4 * i))) ∨
        ∃ k < file.length / 256 + 1, c = .page k) ∧
      ((∀ c, .samba_format c ∈ ops → c.WellFormed) ↔ file.length < 65536) := by
  have hsize : firmware_size file < 2 ^ 31 := by
    rw [firmware_size_eq]
    omega
  obtain ⟨ops, hops⟩ := exists_issues mem hsize
  have hmem (c : Command) := (mem_issued_iff hops).trans (mem_image_ops_iff (c := c))
  refine ⟨ops, hops, hmem, ?_⟩
  simp only [hmem]
  constructor
  · intro h
    have hlast := wellFormed_page_iff.1 (h _ (.inr ⟨file.length / 256, by omega, rfl⟩))
    omega
  · rintro hlt c (⟨i, hi, rfl⟩ | ⟨k, hk, rfl⟩)
    · refine wellFormed_word ?_ (word_data_lt _)
      rw [flashbase]
      omega
    · exact wellFormed_page (by omega)

/-- Three bytes are sent in commands that are read back. -/
theorem commands_wellFormed_three :
    ∃ ops, Issues [1, 2, 3] (fun _ => 0) ops ∧
      (∀ c, .samba_format c ∈ ops ↔
        (∃ i < 64, c = .word (4 * i) (word_data (fwdata [1, 2, 3] fun _ => 0) (4 * i))) ∨
        ∃ k < 1, c = .page k) ∧
      ((∀ c, .samba_format c ∈ ops → c.WellFormed) ↔ 3 < 65536) :=
  commands_wellFormed_iff [1, 2, 3] (fun _ => 0) (by norm_num)

/-- **The page that has three digits** is committed by a command without its end. -/
theorem page_without_end :
    ∃ ops, Issues (List.replicate 65536 0) (fun _ => 0) ops ∧
      .samba_format (.page 256) ∈ ops ∧ ¬(Command.page 256).WellFormed ∧
      (Command.page 256).cmd = "W400E0804,5A0010003".toList := by
  have hsize : firmware_size (List.replicate 65536 0) < 2 ^ 31 := by
    rw [firmware_size_eq, List.length_replicate]
    norm_num
  obtain ⟨ops, hops⟩ := exists_issues (fun _ => 0) hsize
  refine ⟨ops, hops, ?_, fun h => absurd (wellFormed_page_iff.1 h) (by omega), ?_⟩
  · rw [mem_issued_iff hops, mem_image_ops_iff, List.length_replicate]
    exact .inr ⟨256, by norm_num, rfl⟩
  · decide

/-! ### What is written -/

/-- The flash command of a page. -/
def commit (k : ℕ) : ℕ × ℕ := (0x400E0804, 0x5A000003 + k <<< 8)

/-- The pages of a file. -/
def pages (file : List UInt8) : ℕ := (file.length + 255) / 256

/-- **What flashing a file is to do**: every byte is written at its place, each page is committed
once after its 64 words, nothing beyond is written, and what fills the last page is not left
to the memory. -/
structure Exact (file : List UInt8) : Prop where
  issues : ∀ mem, ∃ ops, Issues file mem ops
  bytes : ∀ mem ops, Issues file mem ops → ∀ i, ∀ hi : i < file.length,
    ∃ v, (0x80000 + (i - i % 4), v) ∈ writes ops ∧ v / 256 ^ (i % 4) % 256 = file[i].toNat
  commits : ∀ mem ops, Issues file mem ops → ∀ k < pages file,
    (writes ops).count (commit k) = 1 ∧ ∃ before words after,
      writes ops = before ++ (words ++ commit k :: after) ∧
        words.map Prod.fst = (List.range 64).map fun j => 0x80000 + 256 * k + 4 * j
  beyond : ∀ mem ops, Issues file mem ops →
    (∀ a v, (a, v) ∈ writes ops → a = 0x400E0804 ∨ a < 0x80000 + 256 * pages file) ∧
      ∀ k, pages file ≤ k → commit k ∉ writes ops
  settled : ∀ mem mem' ops ops', Issues file mem ops → Issues file mem' ops' →
    ∀ a v, a < 0x80000 + 256 * pages file → (a, v) ∈ writes ops → (a, v) ∈ writes ops'

theorem writes_append (xs ys : List Op) : writes (xs ++ ys) = writes xs ++ writes ys :=
  List.filterMap_append

theorem write_word {pos data : ℕ} (hpos : flashbase + pos < 2 ^ 32) (hdata : data < 2 ^ 32) :
    (Op.samba_format (.word pos data)).write = some (0x80000 + pos, data) :=
  (wellFormed_word hpos hdata).reads

theorem writes_erase_ops : writes erase_ops = [(0x400E0804, 0x5A000005)] := rfl

theorem writes_leave_ops : writes leave_ops = [(0x400E0804, 0x5A00010B)] := rfl

/-- What a page sends after its words. -/
def page_writes (k : ℕ) : List (ℕ × ℕ) := if k < 256 then [commit k] else []

theorem writes_page_ops (k : ℕ) : writes (page_ops k) = page_writes k := by
  rw [writes, page_ops, page_writes]
  split_ifs with hk
  · have hpage : (Op.samba_format (.page k)).write = some (commit k) := (wellFormed_page hk).reads
    rw [List.filterMap_cons_some hpage]
    rfl
  · have hpage : (Op.samba_format (.page k)).write = none := read_command_page (not_lt.1 hk)
    rw [List.filterMap_cons_none hpage]
    rfl

/-- The write of a word. -/
def word_write (fw : ℕ → UInt8) (pos : ℕ) : ℕ × ℕ := (0x80000 + pos, word_data fw pos)

theorem writes_word_ops {pos : ℕ} (hpos : flashbase + pos < 2 ^ 32) :
    writes (word_ops fw pos) = [word_write fw pos] := by
  rw [writes, word_ops, List.filterMap_cons_some (write_word hpos (word_data_lt pos))]
  rfl

/-- **What an image writes**, word by word. -/
theorem writes_image_ops {n : ℕ} (hn : 256 * n < 2 ^ 31) :
    writes (image_ops fw n) = (List.range (64 * n)).flatMap fun i =>
      word_write fw (4 * i) :: if i % 64 = 63 then page_writes (i / 64) else [] := by
  rw [writes, image_ops, List.filterMap_flatMap]
  refine List.flatMap_congr fun i hi => ?_
  rw [List.mem_range] at hi
  change writes (word_step fw i) = _
  rw [word_step, writes_append, writes_word_ops (by rw [flashbase]; omega), List.singleton_append]
  split_ifs
  · rw [writes_page_ops]
  · rfl

/-- A list of rows of one length is the list of its items. -/
theorem flatMap_range_mul {β : Type*} (m n : ℕ) (f : ℕ → List β) :
    (List.range (m * n)).flatMap f =
      (List.range n).flatMap fun k => (List.range m).flatMap fun j => f (m * k + j) := by
  induction n with
  | zero => simp
  | succ n ih =>
      rw [Nat.mul_succ, List.range_add, List.flatMap_append, ih, List.range_succ,
        List.flatMap_append, List.flatMap_singleton, List.flatMap_map]

/-- The words of a page. -/
def page_words (fw : ℕ → UInt8) (k : ℕ) : List (ℕ × ℕ) :=
  (List.range 64).map fun j => word_write fw (256 * k + 4 * j)

/-- **What an image writes**, page by page: the words of the page and then its flash command. -/
theorem writes_image_ops_pages {n : ℕ} (hn : 256 * n < 2 ^ 31) :
    writes (image_ops fw n) =
      (List.range n).flatMap fun k => page_words fw k ++ page_writes k := by
  rw [writes_image_ops hn, flatMap_range_mul]
  refine List.flatMap_congr fun k _ => ?_
  have hword (j : ℕ) : word_write fw (4 * (64 * k + j)) = word_write fw (256 * k + 4 * j) := by
    congr 1
    omega
  have hlast : (64 * k + 63) % 64 = 63 ∧ (64 * k + 63) / 64 = k := by omega
  have hrange : List.range 64 = List.range 63 ++ [63] := List.range_succ
  rw [page_words, hrange, List.flatMap_append, List.map_append, List.append_assoc]
  refine congrArg₂ (· ++ ·) ?_ ?_
  · rw [List.map_eq_flatMap]
    refine List.flatMap_congr fun j hj => ?_
    rw [List.mem_range] at hj
    rw [if_neg (by omega), hword]
  · rw [List.flatMap_singleton, if_pos hlast.1, hlast.2, hword]
    rfl

/-- **What flashing a file writes.** -/
theorem writes_eq (h : Issues file mem ops) :
    writes ops = (0x400E0804, 0x5A000005) ::
      (((List.range (file.length / 256 + 1)).flatMap fun k =>
        page_words (fwdata file mem) k ++ page_writes k) ++ [(0x400E0804, 0x5A00010B)]) := by
  obtain ⟨hsize, rfl⟩ := issues_iff.1 h
  rw [firmware_size_eq] at hsize
  rw [writes_append, writes_append, writes_erase_ops, writes_leave_ops,
    writes_image_ops_pages hsize]
  rfl

/-- A write is one of the four kinds. -/
theorem mem_writes_iff (h : Issues file mem ops) {w : ℕ × ℕ} :
    w ∈ writes ops ↔ w = (0x400E0804, 0x5A000005) ∨ w = (0x400E0804, 0x5A00010B) ∨
      (∃ i < 64 * (file.length / 256 + 1), w = word_write (fwdata file mem) (4 * i)) ∨
      ∃ k < file.length / 256 + 1, k < 256 ∧ w = commit k := by
  simp only [writes_eq h, List.mem_cons, List.mem_append, List.mem_flatMap, List.mem_range,
    List.not_mem_nil, or_false, page_words, page_writes, List.mem_map]
  constructor
  · rintro (rfl | ⟨k, hk, ⟨j, hj, rfl⟩ | hpage⟩ | rfl)
    · exact .inl rfl
    · refine .inr (.inr (.inl ⟨64 * k + j, by omega, ?_⟩))
      rw [show 4 * (64 * k + j) = 256 * k + 4 * j by omega]
    · split_ifs at hpage with hlt
      · exact .inr (.inr (.inr ⟨k, hk, hlt, List.mem_singleton.1 hpage⟩))
      · cases hpage
    · exact .inr (.inl rfl)
  · rintro (rfl | rfl | ⟨i, hi, rfl⟩ | ⟨k, hk, hlt, rfl⟩)
    · exact .inl rfl
    · exact .inr (.inr rfl)
    · refine .inr (.inl ⟨i / 64, by omega, .inl ⟨i % 64, by omega, ?_⟩⟩)
      rw [show 256 * (i / 64) + 4 * (i % 64) = 4 * i by omega]
    · exact .inr (.inl ⟨k, hk, .inr (by rw [if_pos hlt]; exact List.mem_singleton_self _)⟩)

theorem fwdata_of_lt {i : ℕ} (hi : i < file.length) : fwdata file mem i = file[i] :=
  List.getD_eq_getElem _ _ hi

/-- The bytes of a word. -/
theorem word_data_byte (pos : ℕ) {r : ℕ} (hr : r < 4) :
    word_data fw pos / 256 ^ r % 256 = (fw (pos + r)).toNat := by
  have h0 := (fw pos).toNat_lt
  have h1 := (fw (pos + 1)).toNat_lt
  have h2 := (fw (pos + 2)).toNat_lt
  have h3 := (fw (pos + 3)).toNat_lt
  rw [word_data_eq]
  obtain rfl | rfl | rfl | rfl : r = 0 ∨ r = 1 ∨ r = 2 ∨ r = 3 := by omega
  all_goals
    norm_num
    omega

/-- **Every byte of the file is written at its place.** -/
theorem bytes_written (h : Issues file mem ops) {i : ℕ} (hi : i < file.length) :
    ∃ v, (0x80000 + (i - i % 4), v) ∈ writes ops ∧ v / 256 ^ (i % 4) % 256 = file[i].toNat := by
  have hword : word_write (fwdata file mem) (4 * (i / 4)) ∈ writes ops :=
    (mem_writes_iff h).2 (.inr (.inr (.inl ⟨i / 4, by omega, rfl⟩)))
  have hpos : 4 * (i / 4) = i - i % 4 := by omega
  have hplace : i - i % 4 + i % 4 = i := by omega
  rw [hpos] at hword
  refine ⟨_, hword, ?_⟩
  rw [word_data_byte _ (Nat.mod_lt _ (by norm_num)), hplace, fwdata_of_lt hi]

theorem fwdata_of_le {i : ℕ} (hi : file.length ≤ i) : fwdata file mem i = mem i :=
  List.getD_eq_default _ _ hi

variable (file mem) in
/-- The last byte of the word that the file ends in is what the memory holds. -/
theorem word_data_bounds (i b : ℕ) (hi : file.length ≤ i + 3) (hb : (mem (i + 3)).toNat = b) :
    2 ^ 24 * b ≤ word_data (fwdata file mem) i ∧
      word_data (fwdata file mem) i < 2 ^ 24 * (b + 1) := by
  have h0 := (fwdata file mem i).toNat_lt
  have h1 := (fwdata file mem (i + 1)).toNat_lt
  have h2 := (fwdata file mem (i + 2)).toNat_lt
  rw [word_data_eq, fwdata_of_le hi, hb]
  omega

/-- The word after the last one that the file fills. -/
theorem mem_writes_last (h : Issues file mem ops) :
    word_write (fwdata file mem) (4 * (file.length / 4)) ∈ writes ops :=
  (mem_writes_iff h).2 (.inr (.inr (.inl ⟨file.length / 4, by omega, rfl⟩)))

/-- **A file that ends with a page**: the page behind it is written. -/
theorem not_exact_of_whole (hwhole : file.length % 256 = 0) : ¬Exact file := by
  intro h
  obtain ⟨ops, hops⟩ := h.issues fun _ => 0
  rcases (h.beyond _ _ hops).1 _ _ (mem_writes_last hops) with hregister | hinside
  · omega
  · rw [pages] at hinside
    omega

/-- **A file that ends inside of a page**: its last word is the memory's. -/
theorem not_exact_of_part (hpart : file.length % 256 ≠ 0) : ¬Exact file := by
  intro h
  obtain ⟨ops, hops⟩ := h.issues fun _ => 0
  obtain ⟨ops', hops'⟩ := h.issues fun _ => 255
  have hinside : 0x80000 + 4 * (file.length / 4) < 0x80000 + 256 * pages file := by
    rw [pages]
    omega
  have hother := h.settled _ _ _ _ hops hops' _ _ hinside (mem_writes_last hops)
  -- The last byte of the word is 0 with one memory, and 255 with the other.
  have hlow := word_data_bounds file (fun _ => 0) (4 * (file.length / 4)) 0 (by omega) rfl
  have hhigh := word_data_bounds file (fun _ => 255) (4 * (file.length / 4)) 255 (by omega) rfl
  rcases (mem_writes_iff hops').1 hother with heq | heq | ⟨i, hi, heq⟩ | ⟨k, hk, hlt, heq⟩
  · have hdata := congrArg Prod.snd heq
    simp only at hdata
    omega
  · have hdata := congrArg Prod.snd heq
    simp only at hdata
    omega
  · have haddr := congrArg Prod.fst heq
    have hdata := congrArg Prod.snd heq
    simp only [word_write] at haddr hdata
    obtain rfl : i = file.length / 4 := by omega
    omega
  · have hdata := congrArg Prod.snd heq
    simp only [commit, Nat.shiftLeft_eq] at hdata
    omega

/-- **No file is written as it is and nothing else.** -/
theorem not_exact (file : List UInt8) : ¬Exact file := by
  by_cases hwhole : file.length % 256 = 0
  · exact not_exact_of_whole hwhole
  · exact not_exact_of_part hwhole

/-- Of one byte the three behind it are the memory's, and of a page the page behind it. -/
theorem not_exact_byte_and_page : ¬Exact [0x42] ∧ ¬Exact (List.replicate 256 0x42) :=
  ⟨not_exact_of_part (by simp), not_exact_of_whole (by rw [List.length_replicate])⟩

end Samba

end Libsmu
