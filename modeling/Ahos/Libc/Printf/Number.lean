import Ahos.Libc.Printf.Defs
import Mathlib.Data.Nat.Digits.Lemmas

/-!
# The text of a number

`number` writes a sign, the prefix of the base, zeros up to the precision and the digits, and pads
this text to the width: behind it, between the prefix and the digits, or in front of it.
-/

namespace Ahos

/-- The character of a digit. -/
def digitByte (small : Bool) (digit : ℕ) : UInt8 :=
  printDigits.getD digit 0 ||| if small then 0x20 else 0

/-- The digits of a number, the highest first. Zero has one digit. -/
def digitText (base : ℕ) (small : Bool) (num : ℕ) : List UInt8 :=
  if num = 0 then [0x30] else ((Nat.digits base num).map (digitByte small)).reverse

/-- The digits behind as many zeros as the precision asks for. -/
def magnitudeText (base : ℕ) (small : Bool) (precision num : ℕ) : List UInt8 :=
  List.replicate (precision - (digitText base small num).length) 0x30 ++ digitText base small num

/-- The sign that is written in front of a number. -/
def signText (type : PrintFlags) (negative : Bool) : List UInt8 :=
  if type.sign then
    if negative then [0x2d] else if type.plus then [0x2b] else if type.space then [0x20] else []
  else []

/-- What is written in front of the digits of a base. -/
def baseText (type : PrintFlags) (base : ℕ) : List UInt8 :=
  if type.special then
    if base = 8 then [0x30]
    else if base = 16 then [0x30, 0x58 ||| if type.small then 0x20 else 0]
    else []
  else []

/-- A text of two parts in a field: spaces behind it or in front of it, or zeros between the
parts. -/
def padText (type : PrintFlags) (width : ℕ) (head body : List UInt8) : List UInt8 :=
  let pad := width - (head.length + body.length)
  if type.left then head ++ body ++ List.replicate pad 0x20
  else if type.zeropad then head ++ List.replicate pad 0x30 ++ body
  else List.replicate pad 0x20 ++ head ++ body

/-- The text of a number. -/
def numberText (type : PrintFlags) (base width precision : ℕ) (value : ℤ) : List UInt8 :=
  padText type width (signText type (decide (value < 0)) ++ baseText type base)
    (magnitudeText base type.small precision value.natAbs)

/-- The number that a word stands for. -/
def numberValue (type : PrintFlags) (num : ℕ) : ℤ := if type.sign then toInt32 num else num

/-! ## Fields -/

theorem padText_length (type : PrintFlags) (width : ℕ) (head body : List UInt8) :
    (padText type width head body).length = max width (head.length + body.length) := by
  simp only [padText]
  split_ifs
  · simp only [List.length_append, List.length_replicate]
    omega
  · simp only [List.length_append, List.length_replicate]
    omega
  · simp only [List.length_append, List.length_replicate]
    omega

/-! ## Digits -/

section Digits

variable {base : ℕ}

theorem printDigits_length : printDigits.length = 16 := rfl

theorem readCell_printDigits {digit : ℕ} (h : digit < 16) :
    readCell printDigits digit = .ok (printDigits.getD digit 0) := by
  rw [readCell_eq_ok, List.getD_eq_getElem?_getD,
    List.getElem?_eq_getElem (by rwa [printDigits_length]), Option.getD_some]

/-- `tmp` holds the digits of every number that it has room for. -/
theorem tmpDigits_eq (hbase : 1 < base) (hle : base ≤ 16) (small : Bool) {left num : ℕ}
    (hroom : num < base ^ left) :
    tmpDigits base (if small then 0x20 else 0) left num =
      .ok ((Nat.digits base num).map (digitByte small)) := by
  induction left generalizing num with
  | zero =>
    obtain rfl : num = 0 := by simpa using hroom
    rw [tmpDigits, if_pos rfl, Nat.digits_zero]
    rfl
  | succ left ih =>
    rw [tmpDigits]
    by_cases hzero : num = 0
    · rw [if_pos hzero, hzero, Nat.digits_zero]
      rfl
    · have hdigit : num % base < base := Nat.mod_lt _ (by omega)
      have hrest : num / base < base ^ left := by
        rw [Nat.div_lt_iff_lt_mul (by omega), ← pow_succ]
        exact hroom
      rw [if_neg hzero, readCell_printDigits (by omega), Run.ok_bind, ih hrest, Run.ok_bind,
        Nat.digits_def' hbase (Nat.pos_of_ne_zero hzero), List.map_cons]
      rfl

end Digits

/-! ## The number -/

theorem toInt32_neg (num : ℕ) (hnum : num < 4294967296) : toInt32 num < 0 ↔ isNegative num := by
  unfold toInt32 isNegative
  split_ifs <;> omega

theorem natAbs_numberValue_lt (type : PrintFlags) {num : ℕ} (hnum : num < 4294967296) :
    (numberValue type num).natAbs < 4294967296 := by
  unfold numberValue toInt32
  split_ifs with hsign hneg
  · unfold isNegative at hneg
    omega
  · omega
  · omega

/-- The sign, the magnitude and the width that `number` computes. -/
theorem numberSign_eq (type : PrintFlags) {num : ℕ} (hnum : num < 4294967296) (size : ℤ) :
    ∃ sign : UInt8,
      numberSign type num size = (sign, (numberValue type num).natAbs,
        size - (signText type (decide (numberValue type num < 0))).length) ∧
      (if sign ≠ 0 then [sign] else []) = signText type (decide (numberValue type num < 0)) := by
  by_cases hsign : type.sign = true
  · have hvalue : numberValue type num = toInt32 num := by rw [numberValue, if_pos hsign]
    rw [hvalue]
    simp only [toInt32_neg num hnum]
    by_cases hminus : isNegative num
    · have hmag : Word32.sub 0 num = (toInt32 num).natAbs := by
        rw [toInt32, if_pos hminus]
        unfold Word32.sub Word32.wrap
        unfold isNegative at hminus
        omega
      exact ⟨0x2d, by simp [numberSign, signText, hsign, hminus, hmag],
        by simp [signText, hsign, hminus]⟩
    · have hmag : (toInt32 num).natAbs = num := by
        rw [toInt32, if_neg hminus]
        rfl
      by_cases hplus : type.plus = true
      · exact ⟨0x2b, by simp [numberSign, signText, hsign, hminus, hmag, hplus],
          by simp [signText, hsign, hminus, hplus]⟩
      · by_cases hspace : type.space = true
        · exact ⟨0x20, by simp [numberSign, signText, hsign, hminus, hmag, hplus, hspace],
            by simp [signText, hsign, hminus, hplus, hspace]⟩
        · exact ⟨0, by simp [numberSign, signText, hsign, hminus, hmag, hplus, hspace],
            by simp [signText, hsign, hminus, hplus, hspace]⟩
  · exact ⟨0, by simp [numberSign, numberValue, signText, hsign], by simp [signText, hsign]⟩

/-- `tmp` has room for the digits of a word. -/
theorem numberTmp_eq {base num : ℕ} (hbase : 1 < base) (hle : base ≤ 16) (small : Bool)
    (hnum : num < 4294967296) :
    numberTmp base (if small then 0x20 else 0) num = .ok (digitText base small num).reverse := by
  unfold numberTmp digitText
  by_cases hzero : num = 0
  · rw [if_pos hzero, if_pos hzero]
    rfl
  · have hroom : num < base ^ 66 := by
      calc num < 4294967296 := hnum
        _ ≤ 2 ^ 66 := by norm_num
        _ ≤ base ^ 66 := Nat.pow_le_pow_left hbase 66
    rw [if_neg hzero, if_neg hzero, tmpDigits_eq hbase hle small hroom, List.reverse_reverse]

theorem numberSize_eq (type : PrintFlags) (base : ℕ) (size : ℤ) :
    numberSize type base size = size - (baseText type base).length := by
  unfold numberSize baseText
  by_cases hspecial : type.special = true
  · rw [if_pos hspecial, if_pos hspecial]
    by_cases h16 : base = 16
    · simp [h16]
    · by_cases h8 : base = 8
      · simp [h8]
      · simp [h16, h8]
  · rw [if_neg hspecial, if_neg hspecial]
    simp

/-- The parts of the text, in the order in which they are written. -/
theorem numberWrite_eq (type : PrintFlags) (sign : UInt8) (base : ℕ) (size precision : ℤ)
    (digits : List UInt8) (hleft : type.left = true → type.zeropad = false) :
    numberWrite type (if type.zeropad then 0x30 else 0x20) sign (if type.small then 0x20 else 0)
        base (size - ((if sign ≠ 0 then [sign] else []).length : ℕ) - (baseText type base).length)
        precision digits.reverse =
      padText type size.toNat ((if sign ≠ 0 then [sign] else []) ++ baseText type base)
        (List.replicate (precision.toNat - digits.length) 0x30 ++ digits) := by
  have hbase : (if type.special = true then if base = 8 then [0x30] else
      if base = 16 then [0x30, 0x58 ||| if type.small then 0x20 else 0] else [] else []) =
      baseText type base := rfl
  unfold numberWrite
  simp only [hbase, List.length_reverse, List.reverse_reverse]
  generalize (if sign ≠ 0 then [sign] else []) = s
  generalize baseText type base = b
  generalize hp : (if precision < (digits.length : ℤ) then (digits.length : ℤ) else precision) = p
  have hzeros : (p - digits.length).toNat = precision.toNat - digits.length := by
    split_ifs at hp <;> omega
  have hpad : (size - s.length - b.length - p).toNat = size.toNat - ((s ++ b).length +
      (List.replicate (precision.toNat - digits.length) (0x30 : UInt8) ++ digits).length) := by
    simp only [List.length_append, List.length_replicate]
    split_ifs at hp <;> omega
  rw [hzeros]
  unfold padText
  rw [← hpad]
  generalize size - (s.length : ℤ) - b.length - p = rest
  cases hl : type.left with
  | true =>
    simp [hleft hl, padWhile]
  | false =>
    -- A loop that comes after another one finds a width below zero.
    have htail : ∀ n : ℤ, (min n 0 - 1).toNat = 0 := fun n => by omega
    cases hz : type.zeropad with
    | true =>
      simp only [Bool.false_eq_true, true_or, if_true, if_false, padWhile, htail,
        List.replicate_zero, List.append_nil, List.nil_append, List.append_assoc]
    | false =>
      simp only [Bool.false_eq_true, or_self, if_false, padWhile, htail, List.replicate_zero,
        List.append_nil, List.append_assoc]

theorem clearZeropad_left (type : PrintFlags) (h : (clearZeropad type).left = true) :
    (clearZeropad type).zeropad = false := by
  unfold clearZeropad at h ⊢
  split_ifs at h ⊢ with hl
  · rfl
  · exact absurd h hl

theorem clearZeropad_small (type : PrintFlags) : (clearZeropad type).small = type.small := by
  unfold clearZeropad
  split_ifs <;> rfl

/-- **`number` writes the text of the number**, with no more than the 66 bytes of `tmp`. -/
theorem number_eq (type : PrintFlags) {num base : ℕ} (hnum : num < 4294967296) (hbase : 1 < base)
    (hle : base ≤ 16) (size precision : ℤ) :
    number num base size precision type =
      .ok (some (numberText type base size.toNat precision.toNat (numberValue type num))) := by
  have htext : numberText (clearZeropad type) base size.toNat precision.toNat
      (numberValue (clearZeropad type) num) =
      numberText type base size.toNat precision.toNat (numberValue type num) := by
    unfold clearZeropad
    split_ifs with hl
    · simp only [numberText, padText, hl, if_true]
      rfl
    · rfl
  obtain ⟨sign, hsize, hsign⟩ := numberSign_eq (clearZeropad type) hnum size
  unfold number
  rw [if_neg (by omega)]
  simp only [hsize, ← clearZeropad_small type]
  rw [numberTmp_eq hbase hle _ (natAbs_numberValue_lt _ hnum), Run.ok_bind, numberSize_eq, ← hsign,
    numberWrite_eq _ sign base size precision _ (clearZeropad_left type), hsign, ← htext]
  rfl

end Ahos
