import Ahos.Libc
import Ahos.Libc.Printf.Vsprintf

/-!
# Reading numbers back

The readers of the library take what `vsprintf` writes for a number: `atoh` the hexadecimal digits
and `skip_atoi` the decimal ones, with as many zeros in front of them as the width and the
precision ask for.
-/

namespace Ahos

/-- What a reader of digits makes of a text. -/
def readDigits (digit : UInt8 → ℕ) (base value : ℕ) (text : List UInt8) : ℕ :=
  text.foldl (fun value c => base * value + digit c) value

section Digits

variable {digit : UInt8 → ℕ} {base : ℕ} {small : Bool}

/-- The reader knows the digits that `number` writes. -/
def Knows (digit : UInt8 → ℕ) (base : ℕ) (small : Bool) : Prop :=
  ∀ d < base, digit (digitByte small d) = d

theorem readDigits_zeros (hzero : digit 0x30 = 0) (n : ℕ) (text : List UInt8) :
    readDigits digit base 0 (List.replicate n 0x30 ++ text) = readDigits digit base 0 text := by
  induction n with
  | zero => rfl
  | succ n ih =>
    rw [List.replicate_succ, List.cons_append, readDigits, List.foldl_cons, hzero, Nat.mul_zero]
    exact ih

/-- **The digits of a number denote the number.** -/
theorem readDigits_digitText (hknows : Knows digit base small) (hzero : digit 0x30 = 0)
    (hbase : 1 < base) (n : ℕ) : readDigits digit base 0 (digitText base small n) = n := by
  unfold digitText
  by_cases hn : n = 0
  · simp [hn, readDigits, hzero]
  · rw [if_neg hn, readDigits, List.foldl_reverse, List.foldr_map]
    have hfold : ∀ ds : List ℕ, (∀ d ∈ ds, d < base) →
        ds.foldr (fun d value => base * value + digit (digitByte small d)) 0 =
          Nat.ofDigits base ds := by
      intro ds hds
      induction ds with
      | nil => rfl
      | cons d ds ih =>
        rw [List.foldr_cons, ih fun e he => hds e (List.mem_cons_of_mem _ he),
          hknows d (hds d List.mem_cons_self), Nat.ofDigits_cons, Nat.add_comm]
    rw [hfold _ fun d hd => Nat.digits_lt_base hbase hd, Nat.ofDigits_digits]

end Digits

/-! ## Texts of digits only -/

/-- The directive has no prefix and no sign in front of a number, and zeros instead of spaces. -/
structure Directive.Bare (d : Directive) : Prop where
  special : d.flagBits.special = false
  plus : d.flagBits.plus = false
  space : d.flagBits.space = false
  pad : d.fieldWidth = none ∨ d.flagBits.zeropad = true ∧ d.flagBits.left = false

/-- The text of a number that is not negative: zeros and its digits. -/
theorem Directive.Bare.text_eq {d : Directive} (h : d.Bare) {kind : IntegerKind} {arg : ℕ}
    (hconversion : d.conversion = .integer kind arg) {n : ℕ}
    (hn : integerValue (kind.flags d.flagBits).sign d.qualifier arg = n) :
    ∃ zeros, d.text = List.replicate zeros 0x30 ++
      digitText kind.base (kind.flags d.flagBits).small n := by
  obtain ⟨hspecial, hplus, hspace, hleft, hzeropad⟩ :
      (kind.flags d.flagBits).special = d.flagBits.special ∧
      (kind.flags d.flagBits).plus = d.flagBits.plus ∧
      (kind.flags d.flagBits).space = d.flagBits.space ∧
      (kind.flags d.flagBits).left = d.flagBits.left ∧
      (kind.flags d.flagBits).zeropad = d.flagBits.zeropad := by
    cases kind <;> exact ⟨rfl, rfl, rfl, rfl, rfl⟩
  have hsign : signText (kind.flags d.flagBits) (decide ((n : ℤ) < 0)) = [] := by
    simp [signText, hplus, hspace, h.plus, h.space]
  have hbase : baseText (kind.flags d.flagBits) kind.base = [] := by
    simp [baseText, hspecial, h.special]
  rw [Directive.text, hconversion, Conversion.text, hn, numberText, hsign, hbase, magnitudeText,
    Int.natAbs_natCast]
  obtain hwidth | ⟨hzero, hright⟩ := h.pad
  · refine ⟨d.fieldPrecision.getD 0 -
      (digitText kind.base (kind.flags d.flagBits).small n).length, ?_⟩
    simp [hwidth, padText]
  · rw [padText, hleft, hright, hzeropad, hzero]
    simp only [Bool.false_eq_true, if_false, if_true, List.append_nil, List.nil_append,
      ← List.append_assoc, List.replicate_append_replicate]
    exact ⟨_, rfl⟩

/-! ## The readers -/

section Readers

variable {w post : List UInt8}

theorem hexDigit_digitByte (small : Bool) {d : ℕ} (h : d < 16) :
    hexDigit (digitByte small d) = some d := by
  cases small <;> interval_cases d <;> decide

theorem isdigit_digitByte {d : ℕ} (h : d < 10) :
    isdigit (digitByte false d) ∧ (digitByte false d).toNat - 0x30 = d := by
  interval_cases d <;> decide

/-- The characters of a number. -/
theorem mem_digitText {base n : ℕ} {small : Bool} (hbase : 1 < base) {c : UInt8}
    (hc : c ∈ digitText base small n) : ∃ d < base, c = digitByte small d := by
  unfold digitText at hc
  split_ifs at hc with hn
  · refine ⟨0, by omega, ?_⟩
    rw [List.mem_singleton.mp hc]
    cases small <;> rfl
  · obtain ⟨d, hd, rfl⟩ := List.mem_map.mp (List.mem_reverse.mp hc)
    exact ⟨d, Nat.digits_lt_base hbase hd, rfl⟩

theorem digitText_hex_length (small : Bool) {n : ℕ} (hn : n < 4294967296) :
    (digitText 16 small n).length ≤ 8 := by
  unfold digitText
  split_ifs
  · simp
  · rw [List.length_reverse, List.length_map, Nat.digits_length_le_iff (by norm_num)]
    exact hn

/-- Zeros in front of a number change nothing. -/
theorem atohFrom_zeros (zeros : ℕ) (bytes : List UInt8) :
    atohFrom 0 (List.replicate zeros 0x30 ++ bytes) = atohFrom 0 bytes := by
  induction zeros with
  | zero => rfl
  | succ n ih =>
    rw [List.replicate_succ, List.cons_append, ← ih]
    rfl

/-- **`atoh` reads a hexadecimal number.** -/
theorem atoh_digitText (small : Bool) {n : ℕ} (hn : n < 4294967296) (zeros : ℕ) :
    atoh (List.replicate zeros 0x30 ++ digitText 16 small n ++ 0 :: post) 0 = .ok n := by
  have hknows : Knows (fun c => (hexDigit c).getD 0) 16 small := by
    intro d hd
    simp [hexDigit_digitByte small hd]
  have hall : ∀ c ∈ digitText 16 small n, (hexDigit c).isSome := by
    intro c hc
    obtain ⟨d, hd, rfl⟩ := mem_digitText (by norm_num) hc
    rw [hexDigit_digitByte small hd]
    rfl
  rw [atoh, List.drop_zero, List.append_assoc, atohFrom_zeros,
    atohFrom_digits hall (digitText_hex_length small hn)]
  exact congrArg _ (readDigits_digitText hknows rfl (by norm_num) n)

/-- **`skip_atoi` reads a decimal number**, and stops behind it. -/
theorem skipAtoi_digitText {n : ℕ} (hn : n < 2147483648) (zeros : ℕ) {c : UInt8}
    (hc : ¬isdigit c) :
    skipAtoi (List.replicate zeros 0x30 ++ digitText 10 false n ++ c :: post) =
      .ok ((n : ℤ), c :: post) := by
  have hknows : Knows (fun c => c.toNat - 0x30) 10 false := fun d hd => (isdigit_digitByte hd).2
  have hall : ∀ c ∈ List.replicate zeros 0x30 ++ digitText 10 false n, isdigit c := by
    intro c hc
    obtain hc | hc := List.mem_append.mp hc
    · rw [(List.mem_replicate.mp hc).2]
      decide
    · obtain ⟨d, hd, rfl⟩ := mem_digitText (by norm_num) hc
      exact (isdigit_digitByte hd).1
  have hvalue : decimalValue (List.replicate zeros 0x30 ++ digitText 10 false n) = n := by
    rw [show decimalValue = readDigits (fun c => c.toNat - 0x30) 10 0 by
        funext text
        simp only [decimalValue, readDigits, Nat.mul_comm],
      readDigits_zeros rfl, readDigits_digitText hknows rfl (by norm_num)]
  rw [skipAtoi_eq hall (hvalue.symm ▸ hn) hc, hvalue]

end Readers

/-- **What is printed can be read back**: in a string that `sprintf` has written for an integer
that is not negative, in a directive that pads with zeros at most, `atoh` finds the integer of a
hexadecimal conversion, and `skip_atoi` the one of a decimal conversion that is an `int`, whatever
follows. -/
theorem sprintf_reads_back {mem : List UInt8} {d : Directive} (hvalid : d.Valid mem)
    (hbare : d.Bare) {kind : IntegerKind} {arg : ℕ} (hconversion : d.conversion = .integer kind arg)
    {n : ℕ} (hn : integerValue (kind.flags d.flagBits).sign d.qualifier arg = n) {room : ℕ}
    (hroom : d.text.length < room) :
    ∃ p, sprintf mem room (0x25 :: d.body ++ [0]) d.args = .ok p ∧
      (kind.base = 16 → ∀ post, atoh (p.out ++ 0 :: post) 0 = .ok n) ∧
      (kind.base = 10 → n < 2147483648 → ∀ c post, ¬isdigit c →
        skipAtoi (p.out ++ c :: post) = .ok ((n : ℤ), c :: post)) := by
  obtain ⟨zeros, htext⟩ := hbare.text_eq hconversion hn
  have hitems : ∀ item ∈ [FormatItem.directive d], item.Valid mem := by
    intro item hitem
    obtain rfl := List.mem_singleton.mp hitem
    exact hvalid
  have hwrites := vsprintf_writes hitems room [] []
  simp only [formatBytes, formatArgs, formatText, List.flatMap_singleton, FormatItem.bytes,
    FormatItem.args, FormatItem.text, List.append_nil, if_pos hroom] at hwrites
  refine ⟨_, hwrites, fun h16 post => ?_, fun h10 hsigned c post hc => ?_⟩
  · have hlt : n < 4294967296 := by
      have hunsigned : (kind.flags d.flagBits).sign = false := by
        cases kind <;> first | exact d.flagBits_sign | cases h16
      rw [hunsigned, integerValue] at hn
      simp only [Bool.false_eq_true, if_false, Int.natCast_inj] at hn
      split_ifs at hn <;> omega
    rw [htext, h16]
    exact atoh_digitText _ hlt zeros
  · have hsmall : (kind.flags d.flagBits).small = false := by
      cases kind <;> first | exact d.flagBits_small | cases h10
    rw [htext, h10, hsmall]
    exact skipAtoi_digitText hsigned zeros hc

/-- `"%08x"` and `0xbeef`. -/
theorem sprintf_reads_back_hex :
    ∃ p, sprintf [] 9 (ascii "%08x" ++ [0]) [0xbeef] = .ok p ∧
      ∀ post, atoh (p.out ++ 0 :: post) 0 = .ok 0xbeef := by
  have hvalid : (⟨[.zeropad], some (.digits [0x38]), none, none, .integer .lowerHex 0xbeef⟩ :
      Directive).Valid [] :=
    ⟨by simp [Amount.Valid, Amount.Leads, Amount.value, isdigit, decimalValue], nofun,
      by simp [Conversion.Valid, Conversion.args]⟩
  have hroom : (⟨[.zeropad], some (.digits [0x38]), none, none, .integer .lowerHex 0xbeef⟩ :
      Directive).text.length < 9 := by decide
  obtain ⟨p, hp, hatoh, -⟩ := sprintf_reads_back hvalid ⟨rfl, rfl, rfl, .inr ⟨rfl, rfl⟩⟩ rfl
    (n := 0xbeef) (by decide) hroom
  exact ⟨p, hp, hatoh rfl⟩

end Ahos
