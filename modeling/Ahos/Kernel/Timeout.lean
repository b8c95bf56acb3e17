import Ahos.Mem.Memory
import Mathlib.Data.Int.Basic

/-!
# Timeouts

`timeout.c` over the tick counter of `clock.c`. The counter is a signed word that the clock
interrupt increments; the handler stops the kernel when it becomes negative. A timeout keeps its
length in ticks, and the tick from which on it has expired. Sums and products wrap, as those of
the handler must for its test. A compiler may divide the constants of `timeout_init` first, and
then the product with the frequency does not wrap; the sum of `timeout_start` does in any case.
-/

namespace Ahos

/-! ## The clock -/

/-- `CLOCK_FREQ`. -/
def clockFreq : Int32 := 100

@[simp] theorem toInt_clockFreq : clockFreq.toInt = 100 := by decide

/-- `clock_irq_handler`. -/
def clockIrqHandler (clockTick : Int32) : Outcome Int32 :=
  let clockTick := clockTick + 1
  if clockTick < 0 then panic "clock tick overflow detected!!!" else .ok clockTick

/-- The counter after `n` interrupts. -/
def clockTicks (n : ℕ) (clockTick : Int32) : Outcome Int32 :=
  Run.run (fun clockTick _ => clockIrqHandler clockTick) clockTick (List.replicate n ())

/-! ## The timeout -/

/-- `struct timeout`. -/
structure Timeout where
  length : Int32
  target : Int32
deriving DecidableEq, Repr

/-- `timeout_init`. -/
def timeoutInit (length : Int32) : Timeout := ⟨(length * clockFreq) / 1000, -1⟩

/-- `timeout_start`. -/
def timeoutStart (clockTick : Int32) (timeo : Timeout) : Timeout :=
  { timeo with target := clockTick + timeo.length }

/-- `timeout_expired`. -/
def timeoutExpired (clockTick : Int32) (timeo : Timeout) : Bool := clockTick ≥ timeo.target

/-! ## The counter -/

/-- A sum is computed exactly when it fits. -/
theorem toInt_add_of_lt {a b : Int32} (hlo : -2147483648 ≤ a.toInt + b.toInt)
    (hhi : a.toInt + b.toInt < 2147483648) : (a + b).toInt = a.toInt + b.toInt := by
  rw [Int32.toInt_add]
  exact Int.bmod_eq_of_le (by omega) (by omega)

/-- A sum of two counts that does not fit is negative. -/
theorem toInt_add_neg {a b : Int32} (h : 2147483648 ≤ a.toInt + b.toInt) : (a + b).toInt < 0 := by
  have ha := a.toInt_lt
  have hb := b.toInt_lt
  rw [Int32.toInt_add, Int.bmod_def]
  omega

/-- An interrupt counts, up to the last tick. -/
theorem clockIrqHandler_eq_ok {clockTick now : Int32} (h : 0 ≤ clockTick.toInt) :
    clockIrqHandler clockTick = .ok now ↔ now.toInt = clockTick.toInt + 1 := by
  have hlt := now.toInt_lt
  unfold clockIrqHandler
  simp only [Int32.lt_iff_toInt_lt, Int32.toInt_zero]
  by_cases hfit : clockTick.toInt + Int32.toInt 1 < 2147483648
  · have hsum := toInt_add_of_lt (by rw [Int32.toInt_one]; omega) hfit
    rw [Int32.toInt_one] at hsum
    rw [if_neg (by omega), Except.ok.injEq, ← Int32.toInt_inj, hsum, eq_comm]
  · have hneg := toInt_add_neg (Int.not_lt.mp hfit)
    rw [Int32.toInt_one] at hfit
    rw [if_pos hneg]
    simp only [panic, reduceCtorEq, false_iff]
    omega

/-- **The clock reaches exactly the ticks that are not negative**, each after as many interrupts as
ticks lie in between. -/
theorem clockTicks_eq_ok {n : ℕ} {clockTick now : Int32} (h : 0 ≤ clockTick.toInt) :
    clockTicks n clockTick = .ok now ↔ now.toInt = clockTick.toInt + n := by
  induction n generalizing clockTick with
  | zero =>
    rw [clockTicks, List.replicate_zero, Run.run_nil, Except.ok.injEq, ← Int32.toInt_inj]
    omega
  | succ n ih =>
    rw [clockTicks, List.replicate_succ, Run.run_cons, Run.bind_eq_ok]
    constructor
    · rintro ⟨next, hnext, hrest⟩
      rw [clockIrqHandler_eq_ok h] at hnext
      have := (ih (by omega)).mp hrest
      omega
    · intro hnow
      have hlt := now.toInt_lt
      have hone : (clockTick + 1).toInt = clockTick.toInt + 1 :=
        toInt_add_of_lt (by rw [Int32.toInt_one]; omega) (by rw [Int32.toInt_one]; omega)
      exact ⟨clockTick + 1, (clockIrqHandler_eq_ok h).mpr hone, (ih (by omega)).mpr (by omega)⟩

/-! ## Expiry -/

/-- Division that truncates rounds towards zero. -/
theorem tdiv_thousand (a : ℤ) : 1000 * a.tdiv 1000 ≤ max 0 a ∧ min 0 a ≤ 1000 * a.tdiv 1000 := by
  obtain h | h := Int.le_total 0 a
  · rw [Int.tdiv_eq_ediv_of_nonneg h]
    omega
  · obtain ⟨b, rfl⟩ : ∃ b, a = -b := ⟨-a, by omega⟩
    rw [Int.neg_tdiv, Int.tdiv_eq_ediv_of_nonneg (by omega)]
    omega

section Expiry

variable {length : Int32}

theorem toInt_timeoutInit_length (length : Int32) : (timeoutInit length).length.toInt =
    ((length.toInt * clockFreq.toInt).bmod 4294967296).tdiv 1000 := by
  rw [timeoutInit, Int32.toInt_div_of_ne_right _ _ (by decide), Int32.toInt_mul]
  rfl

/-- The length in ticks, if the product fits. -/
theorem timeoutInit_length_of_lt (h : 0 ≤ length.toInt)
    (hfit : length.toInt * clockFreq.toInt < 2147483648) :
    (timeoutInit length).length.toInt = length.toInt * clockFreq.toInt / 1000 := by
  rw [toInt_clockFreq] at hfit
  rw [toInt_timeoutInit_length, toInt_clockFreq, Int.bmod_eq_of_le (by omega) (by omega),
    Int.tdiv_eq_ediv_of_nonneg (by omega)]

/-- If the product does not fit, the length in ticks is too small. -/
theorem timeoutInit_length_of_le (hfit : 2147483648 ≤ length.toInt * clockFreq.toInt) :
    -2147483648 ≤ (timeoutInit length).length.toInt ∧
      (timeoutInit length).length.toInt < length.toInt * clockFreq.toInt / 1000 := by
  have hlt := length.toInt_lt
  rw [toInt_clockFreq] at hfit
  rw [toInt_timeoutInit_length, toInt_clockFreq]
  have hbmod : (length.toInt * 100).bmod 4294967296 ≤ length.toInt * 100 - 4294967296 ∧
      -2147483648 ≤ (length.toInt * 100).bmod 4294967296 := by
    rw [Int.bmod_def]
    omega
  have htdiv := tdiv_thousand ((length.toInt * 100).bmod 4294967296)
  omega

/-- A timeout has expired from its target on. -/
theorem timeoutExpired_iff (now : Int32) (timeo : Timeout) :
    timeoutExpired now timeo = true ↔ timeo.target.toInt ≤ now.toInt := by
  rw [timeoutExpired, decide_eq_true_iff, ge_iff_le, Int32.le_iff_toInt_le]

/-- **Timeouts expire exactly on time if and only if nothing wraps.** The clock is at a tick `start`
that it reaches, and a timeout of `length` milliseconds is started. At every tick that the clock
reaches from there, the timeout has expired exactly when its length has passed, if and only if the
product with the frequency of the clock and the target both fit. -/
theorem timeout_expires_on_time_iff (start length : Int32)
    (hstart : ∃ n, clockTicks n 0 = .ok start) (hlength : 0 ≤ length) :
    (∀ n now, clockTicks n start = .ok now →
      (timeoutExpired now (timeoutStart start (timeoutInit length)) = true ↔
        length.toInt * clockFreq.toInt / 1000 ≤ now.toInt - start.toInt)) ↔
    length.toInt * clockFreq.toInt < 2147483648 ∧
      start.toInt + length.toInt * clockFreq.toInt / 1000 < 2147483648 := by
  rw [Int32.le_iff_toInt_le, Int32.toInt_zero] at hlength
  have hnonneg : 0 ≤ start.toInt := by
    obtain ⟨n, hn⟩ := hstart
    have := (clockTicks_eq_ok (by rw [Int32.toInt_zero])).mp hn
    rw [Int32.toInt_zero] at this
    omega
  have hlt := start.toInt_lt
  have htarget : (timeoutStart start (timeoutInit length)).target =
      start + (timeoutInit length).length := rfl
  simp only [timeoutExpired_iff, htarget, clockTicks_eq_ok hnonneg]
  constructor
  · intro hall
    have hnow := hall 0 start (by omega)
    by_cases hproduct : length.toInt * clockFreq.toInt < 2147483648
    · refine ⟨hproduct, ?_⟩
      have hlen := timeoutInit_length_of_lt hlength hproduct
      by_contra hsum
      -- the target is negative, so that the timeout has expired at once
      have hneg := toInt_add_neg (a := start) (b := (timeoutInit length).length) (by omega)
      omega
    · obtain ⟨hlo, hless⟩ := timeoutInit_length_of_le (Int.not_lt.mp hproduct)
      by_cases hsum : start.toInt + (timeoutInit length).length.toInt < 2147483648
      · -- it has expired when the length that was computed has passed
        have htoInt := toInt_add_of_lt (by omega) hsum
        have hexpired := hall (timeoutInit length).length.toInt.toNat
          (start + (timeoutInit length).length)
        rw [toInt_clockFreq] at *
        omega
      · have hneg := toInt_add_neg (Int.not_lt.mp hsum)
        omega
  · rintro ⟨hproduct, hsum⟩ n now hnow
    have hlen := timeoutInit_length_of_lt hlength hproduct
    rw [toInt_clockFreq] at hproduct hlen hsum ⊢
    rw [toInt_add_of_lt (by omega) (by omega), hlen]
    omega

end Expiry

/-- The timeouts of 200 ms that wait for the controller, started at boot, have expired at tick 20
and not before. -/
theorem timeout_expires_on_time_controller :
    timeoutExpired 20 (timeoutStart 0 (timeoutInit 200)) = true ∧
      ¬ timeoutExpired 19 (timeoutStart 0 (timeoutInit 200)) = true := by
  have hexact := (timeout_expires_on_time_iff 0 200 ⟨0, rfl⟩ (by decide)).mpr (by decide)
  have hreaches : ∀ (n : ℕ) (now : Int32), now.toInt = n → clockTicks n 0 = .ok now := by
    intro n now hnow
    rw [clockTicks_eq_ok (by rw [Int32.toInt_zero]), Int32.toInt_zero, hnow, Int.zero_add]
  constructor
  · exact (hexact 20 20 (hreaches 20 20 (by decide))).mpr (by decide)
  · rw [hexact 19 19 (hreaches 19 19 (by decide))]
    decide

/-- A timeout of 200 ms that is started 7 ticks before the counter ends has expired at once. -/
theorem timeout_expires_early :
    ¬ ∀ start length : Int32, (∃ n, clockTicks n 0 = .ok start) → 0 ≤ length →
      ∀ n now, clockTicks n start = .ok now →
        (timeoutExpired now (timeoutStart start (timeoutInit length)) = true ↔
          length.toInt * clockFreq.toInt / 1000 ≤ now.toInt - start.toInt) := by
  intro h
  have hreaches : clockTicks 2147483640 0 = .ok 2147483640 := by
    rw [clockTicks_eq_ok (by rw [Int32.toInt_zero])]
    decide
  have hexpired := (h 2147483640 200 ⟨_, hreaches⟩ (by decide) 0 2147483640 rfl).mp (by decide)
  exact absurd hexpired (by decide)

end Ahos
