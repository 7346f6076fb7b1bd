import Mathlib.Data.List.Nodup
import Mathlib.Data.List.Pairwise
import Mathlib.Logic.Function.Basic

/-!
# Sixteen-Bit Words in a Byte Buffer

A buffer is a function from byte addresses to bytes. A word takes two bytes, its high byte
first. Words written at addresses that keep two bytes apart are all read back, in whatever
order they were written.

## Main results

* `getWord_setWord_self`, `getWord_setWord_of_apart`: reading after one write.
* `getWord_setWords`: reading after a list of writes.
* `nodup_writtenBytes`: writes that keep apart set no byte twice.
-/

namespace WordBuffer

/-- The word at address `k`. -/
def getWord (buf : ℕ → UInt8) (k : ℕ) : ℕ :=
  (buf k).toNat <<< 8 ||| (buf (k + 1)).toNat

/-- The buffer with the word `v` at address `k`. -/
def setWord (buf : ℕ → UInt8) (k v : ℕ) : ℕ → UInt8 :=
  Function.update (Function.update buf k (.ofNat (v >>> 8))) (k + 1) (.ofNat (v &&& 0xff))

/-- The buffer after a list of writes, in order. -/
def setWords (buf : ℕ → UInt8) (writes : List (ℕ × ℕ)) : ℕ → UInt8 :=
  writes.foldl (fun buf w => setWord buf w.1 w.2) buf

/-- Words at these addresses do not share a byte. -/
def Apart (j k : ℕ) : Prop := j + 2 ≤ k ∨ k + 2 ≤ j

variable {buf : ℕ → UInt8} {j k v : ℕ}

theorem Apart.symm (h : Apart j k) : Apart k j := Or.symm h

/-- A word is 256 times its high byte plus its low byte. -/
theorem getWord_eq (buf : ℕ → UInt8) (k : ℕ) :
    getWord buf k = (buf k).toNat * 256 + (buf (k + 1)).toNat := by
  have hlow : (buf (k + 1)).toNat < 2 ^ 8 := (buf (k + 1)).toNat_lt
  rw [getWord, ← Nat.shiftLeft_add_eq_or_of_lt hlow, Nat.shiftLeft_eq]

theorem getWord_lt (buf : ℕ → UInt8) (k : ℕ) : getWord buf k < 65536 := by
  have hhigh : (buf k).toNat < 2 ^ 8 := (buf k).toNat_lt
  have hlow : (buf (k + 1)).toNat < 2 ^ 8 := (buf (k + 1)).toNat_lt
  rw [getWord_eq]
  omega

/-- The word just written is read back. -/
theorem getWord_setWord_self (hv : v < 65536) : getWord (setWord buf k v) k = v := by
  have hne : k ≠ k + 1 := Nat.ne_of_lt (Nat.lt_succ_self k)
  have hand : v &&& 0xff = v % 256 := Nat.and_two_pow_sub_one_eq_mod v 8
  have hshift : v >>> 8 = v / 256 := Nat.shiftRight_eq_div_pow v 8
  rw [getWord_eq, setWord, Function.update_of_ne hne, Function.update_self,
    Function.update_self, hand, hshift, UInt8.toNat_ofNat', UInt8.toNat_ofNat']
  omega

/-- A write leaves the words that keep apart from it. -/
theorem getWord_setWord_of_apart (h : Apart j k) : getWord (setWord buf k v) j = getWord buf j := by
  rw [Apart] at h
  have hbyte : ∀ n, n ≠ k → n ≠ k + 1 → setWord buf k v n = buf n := by
    intro n hn hn'
    rw [setWord, Function.update_of_ne hn', Function.update_of_ne hn]
  rw [getWord, getWord, hbyte j (by omega) (by omega), hbyte (j + 1) (by omega) (by omega)]

theorem getWord_setWords_of_apart {writes : List (ℕ × ℕ)} (h : ∀ w ∈ writes, Apart j w.1) :
    getWord (setWords buf writes) j = getWord buf j := by
  induction writes generalizing buf with
  | nil => rfl
  | cons w ws ih =>
      rw [setWords, List.foldl_cons]
      exact (ih fun w' hw' => h w' (List.mem_cons_of_mem w hw')).trans
        (getWord_setWord_of_apart (h w List.mem_cons_self))

/-- **Every word of a list of writes is read back** when the writes keep apart. -/
theorem getWord_setWords {writes : List (ℕ × ℕ)}
    (hapart : writes.Pairwise fun w w' => Apart w.1 w'.1) (hmem : (k, v) ∈ writes)
    (hv : v < 65536) : getWord (setWords buf writes) k = v := by
  induction writes generalizing buf with
  | nil => exact absurd hmem List.not_mem_nil
  | cons w ws ih =>
      obtain ⟨hfirst, hrest⟩ := List.pairwise_cons.mp hapart
      rw [setWords, List.foldl_cons]
      rcases List.mem_cons.mp hmem with rfl | hlater
      · exact (getWord_setWords_of_apart hfirst).trans (getWord_setWord_self hv)
      · exact ih hrest hlater

/-! ### The bytes of the words -/

/-- The bytes that a list of writes sets, in order. -/
def writtenBytes (writes : List (ℕ × ℕ)) : List ℕ :=
  writes.flatMap fun w => [w.1, w.1 + 1]

/-- Writes that keep apart set no byte twice. -/
theorem nodup_writtenBytes {writes : List (ℕ × ℕ)}
    (hapart : writes.Pairwise fun w w' => Apart w.1 w'.1) : (writtenBytes writes).Nodup := by
  rw [writtenBytes, List.nodup_flatMap]
  constructor
  · intro w _
    simp
  · refine hapart.imp ?_
    intro w w' h b hb hb'
    rw [Apart] at h
    simp only [List.mem_cons, List.not_mem_nil, or_false] at hb hb'
    omega

/-- A word depends on its two bytes only. -/
theorem getWord_congr {buf' : ℕ → UInt8} (h : buf k = buf' k) (h' : buf (k + 1) = buf' (k + 1)) :
    getWord buf k = getWord buf' k := by
  rw [getWord, getWord, h, h']

end WordBuffer
