import Mathlib.Data.Nat.Bitwise
import Mathlib.Data.Nat.Log
import Mathlib.Tactic.Ring

/-!
# Unsigned 32-bit words as natural numbers

A machine word is a natural number below `2 ^ 32`. Addition, subtraction and
multiplication reduce modulo `2 ^ 32`; the lemmas below say when the reduction
does nothing, and relate the masks that cut a word at a bit position to
division and remainder.
-/

namespace Word32

/-- Reduction to 32 bits. -/
def wrap (n : ℕ) : ℕ := n % 4294967296

/-- Unsigned 32-bit addition. -/
def add (a b : ℕ) : ℕ := wrap (a + b)

/-- Unsigned 32-bit subtraction. -/
def sub (a b : ℕ) : ℕ := wrap (a + (4294967296 - b % 4294967296))

/-- Unsigned 32-bit multiplication. -/
def mul (a b : ℕ) : ℕ := wrap (a * b)

theorem wrap_lt (n : ℕ) : wrap n < 4294967296 := Nat.mod_lt _ (by norm_num)

theorem wrap_of_lt {n : ℕ} (h : n < 4294967296) : wrap n = n := Nat.mod_eq_of_lt h

theorem add_lt (a b : ℕ) : add a b < 4294967296 := wrap_lt _

theorem add_of_lt {a b : ℕ} (h : a + b < 4294967296) : add a b = a + b := wrap_of_lt h

theorem mul_of_lt {a b : ℕ} (h : a * b < 4294967296) : mul a b = a * b := wrap_of_lt h

/-- Reduced operands give the same sum as unreduced ones. -/
theorem add_mul_wrap (a b c : ℕ) : add a (mul b c) = wrap (a + c * b) := by
  simp only [add, mul, wrap, Nat.add_mod_mod, Nat.mul_comm]

theorem sub_of_le {a b : ℕ} (h : b ≤ a) (ha : a < 4294967296) : sub a b = a - b := by
  unfold sub wrap
  omega

theorem sub_sub_self (a : ℕ) {b : ℕ} (h : b < 4294967296) : sub a (sub a b) = b := by
  unfold sub wrap
  omega

/-- The mask of the low `k` bits is the remainder modulo `2 ^ k`. -/
theorem and_low (x k : ℕ) : x &&& (2 ^ k - 1) = x % 2 ^ k :=
  Nat.and_two_pow_sub_one_eq_mod x k

/-- Masking the low `k` bits out of a word of `k + m` bits rounds it down. -/
theorem and_high {x k m : ℕ} (h : x < 2 ^ (k + m)) :
    x &&& 2 ^ k * (2 ^ m - 1) = 2 ^ k * (x / 2 ^ k) := by
  apply Nat.eq_of_testBit_eq
  intro i
  rw [Nat.testBit_and, Nat.testBit_two_pow_mul, Nat.testBit_two_pow_mul,
    Nat.testBit_two_pow_sub_one, Nat.testBit_div_two_pow]
  by_cases hi : k ≤ i
  · by_cases hm : i - k < m
    · simp [hi, hm]
    · have hx : x.testBit i = false :=
        Nat.testBit_lt_two_pow (lt_of_lt_of_le h (Nat.pow_le_pow_right (by norm_num) (by omega)))
      simp [hi, hm, hx]
  · simp [hi]

/-- Or-ing low bits into a multiple of `2 ^ k` is addition. -/
theorem or_low {a f k : ℕ} (ha : a % 2 ^ k = 0) (hf : f < 2 ^ k) : a ||| f = a + f := by
  obtain ⟨q, rfl⟩ : ∃ q, a = 2 ^ k * q := ⟨a / 2 ^ k, by
    have := Nat.div_add_mod a (2 ^ k)
    omega⟩
  exact (Nat.two_pow_add_eq_or_of_lt hf q).symm

/-! ## The next power of two -/

/-- The bits of `y` are the bits of `x`, each copied to the `w - 1` positions below it. -/
def Spread (x y w : ℕ) : Prop :=
  ∀ i, y.testBit i = true ↔ ∃ j < w, x.testBit (i + j) = true

theorem spread_self (x : ℕ) : Spread x x 1 := by
  intro i
  refine ⟨fun h => ⟨0, by omega, h⟩, ?_⟩
  rintro ⟨j, hj, h⟩
  obtain rfl : j = 0 := by omega
  exact h

/-- One round of the spreading: the width grows by the shift. -/
theorem Spread.shift {x y w s : ℕ} (h : Spread x y w) (hs : s ≤ w) :
    Spread x (y ||| y >>> s) (w + s) := by
  intro i
  rw [Nat.testBit_or, Bool.or_eq_true, Nat.testBit_shiftRight, h i, h (s + i)]
  constructor
  · rintro (⟨j, hj, hbit⟩ | ⟨j, hj, hbit⟩)
    · exact ⟨j, by omega, hbit⟩
    · exact ⟨s + j, by omega, by rwa [show i + (s + j) = s + i + j by omega]⟩
  · rintro ⟨j, hj, hbit⟩
    by_cases hjw : j < w
    · exact .inl ⟨j, hjw, hbit⟩
    · exact .inr ⟨j - s, by omega, by rwa [show s + i + (j - s) = i + j by omega]⟩

/-- Spreading over the whole word fills all positions up to the highest bit. -/
theorem Spread.eq_of_lt {n y w : ℕ} (h : Spread (n - 1) y w) (hn : 0 < n) (hlt : n ≤ 2 ^ w) :
    y = 2 ^ Nat.clog 2 n - 1 := by
  apply Nat.eq_of_testBit_eq
  intro i
  rw [Nat.testBit_two_pow_sub_one, Bool.eq_iff_iff, h i, decide_eq_true_eq]
  have hlog : i < Nat.clog 2 n ↔ 2 ^ i ≤ n - 1 := by
    rw [Nat.lt_clog_iff_pow_lt (by omega)]
    omega
  rw [hlog]
  constructor
  · rintro ⟨j, -, hbit⟩
    have := Nat.ge_two_pow_of_testBit hbit
    exact (Nat.pow_le_pow_right (by omega) (by omega)).trans this
  · intro hle
    obtain ⟨k, hk, hbit⟩ := Nat.exists_ge_and_testBit_of_ge_two_pow hle
    have hkw : k < w := by
      by_contra hge
      have := Nat.ge_two_pow_of_testBit hbit
      have := Nat.pow_le_pow_right (show 0 < 2 by omega) (show w ≤ k by omega)
      omega
    exact ⟨k - i, by omega, by rwa [show i + (k - i) = k by omega]⟩

end Word32
