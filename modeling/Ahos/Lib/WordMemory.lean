import Mathlib.Data.Nat.Basic
import Mathlib.Logic.Function.Basic
import Mathlib.Tactic.IntervalCases

/-!
# Bytes in a memory of words

A memory of 32-bit words is a function on the addresses of the words, which are multiples of
four. A byte is read from the word that contains it, the lowest byte first, and written by
writing this word anew.
-/

namespace WordMemory

variable {mem mem' : ℕ → ℕ} {w b x y : ℕ}

/-- The byte `i` of a word. -/
def byteOf (w i : ℕ) : ℕ := w / 256 ^ i % 256

/-- The word `w` with its byte `i` replaced. -/
def setByteOf (w i b : ℕ) : ℕ := w % 256 ^ i + 256 ^ i * (b + 256 * (w / 256 ^ (i + 1)))

/-- The address of the word that contains the byte at `x`. -/
def wordAddr (x : ℕ) : ℕ := 4 * (x / 4)

/-- The byte at an address. -/
def byte (mem : ℕ → ℕ) (x : ℕ) : ℕ := byteOf (mem (wordAddr x)) (x % 4)

/-- The memory in which the byte at `x` has been written. -/
def setByte (mem : ℕ → ℕ) (x b : ℕ) : ℕ → ℕ :=
  Function.update mem (wordAddr x) (setByteOf (mem (wordAddr x)) (x % 4) b)

theorem byteOf_setByteOf {i j : ℕ} (hi : i < 4) (hj : j < 4) (hb : b < 256) :
    byteOf (setByteOf w i b) j = if j = i then b else byteOf w j := by
  unfold byteOf setByteOf
  interval_cases i <;> interval_cases j <;> simp <;> omega

/-- A byte that is written is read back, and the others are as before. -/
theorem byte_setByte (hb : b < 256) :
    byte (setByte mem x b) y = if y = x then b else byte mem y := by
  unfold byte setByte
  rw [Function.update_apply]
  by_cases hword : wordAddr y = wordAddr x
  · rw [if_pos hword, byteOf_setByteOf (by omega) (by omega) hb, hword]
    unfold wordAddr at hword
    by_cases hyx : y = x
    · simp [hyx]
    · rw [if_neg hyx, if_neg (by omega)]
  · rw [if_neg hword, if_neg]
    rintro rfl
    exact hword rfl

/-- The other words are as before. -/
theorem setByte_of_ne (h : y ≠ wordAddr x) : setByte mem x b y = mem y :=
  Function.update_of_ne h _ _

/-- A byte depends on its word only. -/
theorem byte_congr (h : mem' (wordAddr x) = mem (wordAddr x)) : byte mem' x = byte mem x := by
  rw [byte, byte, h]

end WordMemory
