import Ahos.Libc.Printf.Format

/-!
# `vsprintf` writes the text of a format

Each reader of a directive takes its own part of the format and stops at the first character that
is none of its own. So the code of a directive does what the directive stands for, and the loop of
`vsprintf` writes the texts one behind the other.
-/

namespace Ahos

/-! ## Amounts -/

theorem skipAtoiFrom_eq {ds : List UInt8} (hds : ∀ c ∈ ds, isdigit c) {c : UInt8}
    (hc : ¬isdigit c) (fmt : List UInt8) (i : ℕ) :
    skipAtoiFrom (Word32.wrap i) (ds ++ c :: fmt) =
      .ok (toInt32 (Word32.wrap (ds.foldl (fun i c => i * 10 + (c.toNat - 0x30)) i)), c :: fmt) := by
  induction ds generalizing i with
  | nil => rw [List.nil_append, skipAtoiFrom, if_neg hc, List.foldl_nil]
  | cons d ds ih =>
    have hwrap : Word32.wrap (Word32.wrap i * 10 + (d.toNat - 0x30)) =
        Word32.wrap (i * 10 + (d.toNat - 0x30)) := by
      unfold Word32.wrap
      omega
    rw [List.cons_append, skipAtoiFrom, if_pos (hds d List.mem_cons_self), hwrap,
      ih fun b hb => hds b (List.mem_cons_of_mem _ hb), List.foldl_cons]

theorem toInt32_of_lt {n : ℕ} (h : n < 2147483648) : toInt32 n = n := by
  exact if_neg (Nat.not_le.mpr h)

/-- **`skip_atoi` reads the digits** up to the first character that is none. -/
theorem skipAtoi_eq {ds : List UInt8} (hds : ∀ c ∈ ds, isdigit c)
    (hvalue : decimalValue ds < 2147483648) {c : UInt8} (hc : ¬isdigit c) (fmt : List UInt8) :
    skipAtoi (ds ++ c :: fmt) = .ok ((decimalValue ds : ℤ), c :: fmt) := by
  have heq := skipAtoiFrom_eq hds hc fmt 0
  rwa [← decimalValue, Word32.wrap_of_lt (show decimalValue ds < 4294967296 by omega),
    toInt32_of_lt hvalue] at heq

/-! ## Flags -/

/-- The character is not a flag. -/
def EndsFlags (c : UInt8) : Prop := ∀ flag : PrintFlag, flag.byte ≠ c

theorem endsFlags_iff {c : UInt8} :
    EndsFlags c ↔ c ≠ 0x2d ∧ c ≠ 0x2b ∧ c ≠ 0x20 ∧ c ≠ 0x23 ∧ c ≠ 0x30 := by
  constructor
  · intro h
    exact ⟨(h .left).symm, (h .plus).symm, (h .space).symm, (h .special).symm, (h .zeropad).symm⟩
  · rintro ⟨hleft, hplus, hspace, hspecial, hzeropad⟩ flag
    cases flag with
    | left => exact hleft.symm
    | plus => exact hplus.symm
    | space => exact hspace.symm
    | special => exact hspecial.symm
    | zeropad => exact hzeropad.symm

theorem readFlags_cons (flags : PrintFlags) (flag : PrintFlag) (fmt : List UInt8) :
    readFlags flags (flag.byte :: fmt) = readFlags (flags.set flag) fmt := by
  cases flag <;> rfl

theorem readFlags_eq (flags : PrintFlags) (fs : List PrintFlag) {c : UInt8} (hc : EndsFlags c)
    (fmt : List UInt8) :
    readFlags flags (fs.map PrintFlag.byte ++ c :: fmt) =
      .ok (fs.foldl PrintFlags.set flags, c :: fmt) := by
  induction fs generalizing flags with
  | nil =>
    obtain ⟨hleft, hplus, hspace, hspecial, hzeropad⟩ := endsFlags_iff.mp hc
    simp [readFlags, hleft, hplus, hspace, hspecial, hzeropad]
  | cons flag fs ih =>
    rw [List.map_cons, List.cons_append, readFlags_cons, ih, List.foldl_cons]

/-! ## The width, the precision and the qualifier -/

theorem not_isdigit_star : ¬isdigit 0x2a := by decide

/-- The word of an argument that is not negative. -/
theorem toInt32_natAbs {arg : ℕ} (h : ¬toInt32 arg < 0) : toInt32 arg = (toInt32 arg).natAbs := by
  omega

/-- The negation of an argument that is negative, unless it is the least one. -/
theorem toInt32_sub {arg : ℕ} (hlt : arg < 4294967296) (hneg : toInt32 arg < 0)
    (hvalue : (toInt32 arg).natAbs < 2147483640) :
    toInt32 (Word32.sub 0 arg) = (toInt32 arg).natAbs := by
  unfold toInt32 isNegative Word32.sub Word32.wrap at *
  split_ifs at * <;> omega

theorem readWidth_none (flags : PrintFlags) {c : UInt8} (hdigit : ¬isdigit c) (hstar : c ≠ 0x2a)
    (fmt : List UInt8) (args : List ℕ) :
    readWidth flags (c :: fmt) args = .ok (flags, -1, c :: fmt, args) := by
  unfold readWidth
  simp [peek, hdigit, hstar]

theorem readWidth_some (flags : PrintFlags) {amount : Amount} (hvalid : amount.Valid)
    (hleads : amount.Leads) (hvalue : amount.value.natAbs < 2147483640) {c : UInt8}
    (hc : ¬isdigit c) (fmt : List UInt8) (args : List ℕ) :
    readWidth flags (amount.bytes ++ c :: fmt) (amount.args ++ args) =
      .ok (if amount.value < 0 then { flags with left := true } else flags,
        (amount.value.natAbs : ℤ), c :: fmt, args) := by
  cases amount with
  | digits ds =>
    obtain ⟨d, rest, rfl, -⟩ := hleads
    have hd : isdigit d := hvalid d List.mem_cons_self
    have hskip := skipAtoi_eq hvalid (by rw [Amount.value] at hvalue; omega) hc fmt
    rw [List.cons_append] at hskip
    have hpos : ¬(Amount.digits (d :: rest)).value < 0 := by
      rw [Amount.value]
      omega
    rw [if_neg hpos]
    unfold readWidth
    simp [Amount.bytes, Amount.args, Amount.value, peek, hd, hskip]
  | star arg =>
    have hstar : (Amount.star arg).value = toInt32 arg := rfl
    rw [hstar] at hvalue ⊢
    unfold readWidth
    simp only [Amount.bytes, Amount.args, List.cons_append, List.nil_append, peek,
      Run.ok_bind, if_neg not_isdigit_star, vaArg, List.tail_cons, if_true]
    by_cases hneg : toInt32 arg < 0
    · rw [if_pos hneg, if_pos hneg, Run.pure_eq, toInt32_sub hvalid hneg hvalue]
    · rw [if_neg hneg, if_neg hneg, Run.pure_eq, ← toInt32_natAbs hneg]

theorem readPrecision_none {c : UInt8} (hc : c ≠ 0x2e) (fmt : List UInt8) (args : List ℕ) :
    readPrecision (c :: fmt) args = .ok (-1, c :: fmt, args) := by
  unfold readPrecision
  simp [peek, hc]

theorem readPrecision_some {amount : Amount} (hvalid : amount.Valid)
    (hvalue : amount.value < 2147483640) {c : UInt8} (hc : ¬isdigit c) (hstar : c ≠ 0x2a)
    (fmt : List UInt8) (args : List ℕ) :
    readPrecision (0x2e :: (amount.bytes ++ c :: fmt)) (amount.args ++ args) =
      .ok ((amount.value.toNat : ℤ), c :: fmt, args) := by
  have hmax : ∀ n : ℤ, (if n < 0 then 0 else n) = (n.toNat : ℤ) := by
    intro n
    split_ifs <;> omega
  unfold readPrecision
  simp only [peek, Run.ok_bind, if_true, List.tail_cons, hmax, Run.pure_eq]
  cases amount with
  | digits ds =>
    cases ds with
    | nil => simp [Amount.bytes, Amount.args, Amount.value, hc, hstar, decimalValue]
    | cons d ds =>
      have hd : isdigit d := hvalid d List.mem_cons_self
      have hskip := skipAtoi_eq hvalid (by rw [Amount.value] at hvalue; omega) hc fmt
      rw [List.cons_append] at hskip
      simp [Amount.bytes, Amount.args, Amount.value, hd, hskip]
  | star arg =>
    simp [Amount.bytes, Amount.args, Amount.value, not_isdigit_star, vaArg]

theorem readQualifier_none {c : UInt8} (hc : c ≠ 0x68 ∧ c ≠ 0x6c ∧ c ≠ 0x4c) (fmt : List UInt8) :
    readQualifier (c :: fmt) = .ok (none, c :: fmt) := by
  unfold readQualifier
  simp [peek, hc.1, hc.2.1, hc.2.2]

theorem readQualifier_some (qualifier : Qualifier) (fmt : List UInt8) :
    readQualifier (qualifier.byte :: fmt) = .ok (some qualifier.byte, fmt) := by
  cases qualifier <;> rfl

/-! ## Conversions -/

/-- A width or a precision as `vsprintf` keeps it: `-1` for none. -/
def amountInt (amount : Option ℕ) : ℤ := (amount.map Int.ofNat).getD (-1)

theorem amountInt_toNat (amount : Option ℕ) : (amountInt amount).toNat = amount.getD 0 := by
  cases amount <;> rfl

theorem strnlenFrom_eq {w : List UInt8} (hnul : 0 ∉ w) (post : List UInt8) {maxlen len : ℕ}
    (hlen : len ≤ maxlen) :
    strnlenFrom maxlen len (w ++ 0 :: post) = .ok (min (len + w.length) maxlen) := by
  induction w generalizing len with
  | nil => simp [strnlenFrom, hlen]
  | cons c w ih =>
    rw [List.mem_cons, not_or] at hnul
    rw [List.cons_append, strnlenFrom, List.length_cons]
    by_cases hlt : len < maxlen
    · rw [if_pos ⟨Ne.symm hnul.1, hlt⟩, ih hnul.2 hlt]
      congr 2
      omega
    · rw [if_neg fun h => hlt h.2]
      congr 1
      omega

/-- The string of a `%s`, cut at the precision. -/
theorem strnlen_eq {mem w post : List UInt8} {arg : ℕ} (hmem : mem.drop arg = w ++ 0 :: post)
    (hnul : 0 ∉ w) (hlen : w.length < 2147483648) {precision : Option ℕ}
    (hprecision : ∀ n ∈ precision, n < 2147483640) :
    strnlen mem arg (amountInt precision % 4294967296).toNat =
        .ok (w.take (precision.getD w.length)).length ∧
      (mem.drop arg).take (w.take (precision.getD w.length)).length =
        w.take (precision.getD w.length) := by
  constructor
  · rw [strnlen, hmem, strnlenFrom_eq hnul post (Nat.zero_le _), List.length_take]
    congr 1
    cases precision with
    | none =>
      have hmax : (amountInt none % 4294967296).toNat = 4294967295 := by decide
      rw [hmax, Option.getD_none]
      omega
    | some n =>
      have hn := hprecision n rfl
      have hmax : (amountInt (some n) % 4294967296).toNat = n := by
        simp only [amountInt, Option.map_some, Option.getD_some, Int.ofNat_eq_natCast]
        omega
      rw [hmax, Option.getD_some]
      omega
  · rw [hmem, List.length_take, List.take_append_of_le_length (Nat.min_le_right _ _),
      ← List.take_take, List.take_length]

theorem writeNumber_eq (type : PrintFlags) {num base : ℕ} (hnum : num < 4294967296)
    (hbase : 1 < base) (hle : base ≤ 16) (size precision : ℤ) :
    writeNumber num base size precision type =
      .ok (numberText type base size.toNat precision.toNat (numberValue type num)) := by
  rw [writeNumber, number_eq type hnum hbase hle]
  rfl

theorem readInteger_lt (flags : PrintFlags) (qualifier : Option UInt8) {arg : ℕ}
    (harg : arg < 4294967296) : readInteger flags qualifier arg < 4294967296 := by
  unfold readInteger
  simp only
  split_ifs <;> omega

theorem toInt32_eq {arg : ℕ} (harg : arg < 4294967296) :
    toInt32 arg = (arg : ℤ).bmod 4294967296 := by
  unfold toInt32 isNegative
  rw [Int.bmod_def]
  split_ifs <;> omega

theorem toInt32_short (arg : ℕ) :
    toInt32 (if 32768 ≤ arg % 65536 then arg % 65536 + 4294901760 else arg % 65536) =
      (arg : ℤ).bmod 65536 := by
  unfold toInt32 isNegative
  rw [Int.bmod_def]
  split_ifs <;> omega

/-- The integer of a conversion is the one that its qualifier says. -/
theorem numberValue_readInteger (flags : PrintFlags) (qualifier : Option Qualifier) {arg : ℕ}
    (harg : arg < 4294967296) :
    numberValue flags (readInteger flags (qualifier.map Qualifier.byte) arg) =
      integerValue flags.sign qualifier arg := by
  have hshort : qualifier.map Qualifier.byte = some 0x68 ↔ qualifier = some .short := by
    cases qualifier with
    | none => simp
    | some q => cases q <;> simp [Qualifier.byte]
  unfold numberValue readInteger integerValue
  simp only [hshort]
  by_cases hq : qualifier = some .short
  · simp only [if_pos hq]
    cases hsign : flags.sign with
    | false => simp
    | true => simpa using toInt32_short arg
  · simp only [if_neg hq]
    cases hsign : flags.sign with
    | false => simp [Nat.mod_eq_of_lt harg]
    | true => simpa using toInt32_eq harg

/-- The part of the `switch` behind the conversions of an integer. -/
theorem convertInteger_eq (flags : PrintFlags) (base : ℕ) (hbase : 1 < base) (hle : base ≤ 16)
    (width precision : Option ℕ) (qualifier : Option Qualifier) {arg : ℕ}
    (harg : arg < 4294967296) (args : List ℕ) (fmt : List UInt8) :
    convertInteger flags base (amountInt width) (amountInt precision)
        (qualifier.map Qualifier.byte) (arg :: args) fmt =
      .ok ⟨numberText flags base (width.getD 0) (precision.getD 0)
        (integerValue flags.sign qualifier arg), [], args, fmt⟩ := by
  simp only [convertInteger, vaArg, Run.ok_bind]
  rw [writeNumber_eq flags (readInteger_lt flags _ harg) hbase hle, Run.ok_bind,
    numberValue_readInteger flags qualifier harg, amountInt_toNat, amountInt_toNat]
  rfl

/-- **The `switch` writes the text of its conversion**. -/
theorem convert_eq {mem : List UInt8} {conversion : Conversion} (hvalid : conversion.Valid mem)
    (pos : ℕ) {flags : PrintFlags} (hsign : flags.sign = false) (width : Option ℕ)
    {precision : Option ℕ} (hprecision : ∀ n ∈ precision, n < 2147483640)
    (qualifier : Option Qualifier) (args : List ℕ) (fmt : List UInt8) :
    convert mem pos flags (amountInt width) (amountInt precision) (qualifier.map Qualifier.byte)
        (conversion.args ++ args) (conversion.byte :: fmt) =
      .ok ⟨conversion.text flags width precision qualifier, conversion.stores pos, args, fmt⟩ := by
  unfold convert
  cases conversion with
  | char arg =>
    have hpad : (amountInt width - 1).toNat = width.getD 0 - 1 := by
      rw [← amountInt_toNat]
      omega
    simp only [Conversion.byte, Conversion.args, peek, Run.ok_bind, if_true, List.cons_append,
      vaArg, hpad, Conversion.text, padSpaces, padText, List.tail_cons]
    simp [Conversion.stores]
  | string arg w =>
    obtain ⟨⟨post, hmem⟩, hnul, hlen⟩ := hvalid
    obtain ⟨hstrnlen, htake⟩ := strnlen_eq hmem hnul hlen hprecision
    have hpad : ∀ n : ℕ, (amountInt width - n).toNat = width.getD 0 - n := by
      intro n
      rw [← amountInt_toNat]
      omega
    simp only [Conversion.byte, Conversion.args, peek, Run.ok_bind, List.cons_append,
      List.nil_append, vaArg, hstrnlen, htake, hpad, Conversion.text, padSpaces, padText,
      List.tail_cons]
    simp [Conversion.stores]
  | pointer arg =>
    have harg : arg < 4294967296 := hvalid arg List.mem_cons_self
    have hvalue : numberValue flags arg = arg := by
      unfold numberValue
      rw [hsign]
      rfl
    have hvalue' : numberValue { flags with zeropad := true } arg = arg := hvalue
    simp only [Conversion.byte, Conversion.args, peek, Run.ok_bind, List.cons_append,
      List.nil_append, vaArg, List.tail_cons]
    cases width with
    | none =>
      have htext := writeNumber_eq { flags with zeropad := true } harg
        (by norm_num : 1 < 16) (by norm_num) 8 (amountInt precision)
      rw [hvalue', amountInt_toNat] at htext
      rw [if_pos (show amountInt none = -1 from rfl), htext]
      rfl
    | some n =>
      have htext := writeNumber_eq flags harg (by norm_num : 1 < 16) (by norm_num)
        (amountInt (some n)) (amountInt precision)
      rw [hvalue, amountInt_toNat, amountInt_toNat] at htext
      have hne : amountInt (some n) ≠ -1 := by
        simp only [amountInt, Option.map_some, Option.getD_some, Int.ofNat_eq_natCast]
        omega
      rw [if_neg hne, htext]
      rfl
  | count arg => rfl
  | percent => rfl
  | integer kind arg =>
    have harg : arg < 4294967296 := hvalid arg List.mem_cons_self
    have hconvert := convertInteger_eq (kind.flags flags) kind.base
      (by cases kind <;> decide) (by cases kind <;> decide) width precision qualifier harg args fmt
    cases kind <;> exact hconvert
  | other c =>
    obtain ⟨hmem, -⟩ := hvalid
    simp only [List.mem_cons, List.not_mem_nil, or_false, not_or] at hmem
    simp [Conversion.byte, Conversion.args, peek, Conversion.text, Conversion.stores, hmem]

/-! ## Directives -/

/-- The character neither is a flag nor starts a width. -/
def EndsWidth (c : UInt8) : Prop := EndsFlags c ∧ ¬isdigit c ∧ c ≠ 0x2a

/-- The character does not start a precision either. -/
def EndsPrecision (c : UInt8) : Prop := EndsWidth c ∧ c ≠ 0x2e

theorem IntegerKind.byte_ends (kind : IntegerKind) :
    EndsPrecision kind.byte ∧ kind.byte ≠ 0x68 ∧ kind.byte ≠ 0x6c ∧ kind.byte ≠ 0x4c := by
  unfold EndsPrecision EndsWidth
  rw [endsFlags_iff]
  cases kind <;> decide

theorem Conversion.byte_ends {mem : List UInt8} {conversion : Conversion}
    (hvalid : conversion.Valid mem) :
    EndsPrecision conversion.byte ∧
      conversion.byte ≠ 0x68 ∧ conversion.byte ≠ 0x6c ∧ conversion.byte ≠ 0x4c := by
  cases conversion with
  | integer kind arg => exact kind.byte_ends
  | other c =>
    obtain ⟨hmem, hdigit⟩ := hvalid
    have hzero : c ≠ 0x30 := by
      rintro rfl
      exact hdigit (by decide)
    simp only [List.mem_cons, List.not_mem_nil, or_false, not_or] at hmem
    unfold EndsPrecision EndsWidth
    rw [endsFlags_iff]
    simp [Conversion.byte, hmem, hdigit, hzero]
  | _ =>
    unfold EndsPrecision EndsWidth
    rw [endsFlags_iff]
    simp only [Conversion.byte]
    decide

section Directive

variable {mem : List UInt8} {d : Directive}

theorem Directive.readQualifier_eq (hvalid : d.Valid mem) (fmt : List UInt8) :
    readQualifier (d.qualifierBytes ++ d.conversion.byte :: fmt) =
      .ok (d.qualifier.map Qualifier.byte, d.conversion.byte :: fmt) := by
  unfold Directive.qualifierBytes
  cases d.qualifier with
  | none => exact readQualifier_none (Conversion.byte_ends hvalid.conversion).2 fmt
  | some qualifier => exact readQualifier_some qualifier _

/-- Where the precision ends. -/
theorem Directive.qualifierBytes_head (hvalid : d.Valid mem) (fmt : List UInt8) :
    ∃ c rest, d.qualifierBytes ++ d.conversion.byte :: fmt = c :: rest ∧ EndsPrecision c := by
  unfold Directive.qualifierBytes
  cases d.qualifier with
  | none => exact ⟨_, _, rfl, (Conversion.byte_ends hvalid.conversion).1⟩
  | some qualifier =>
    refine ⟨qualifier.byte, _, rfl, ?_⟩
    unfold EndsPrecision EndsWidth
    rw [endsFlags_iff]
    cases qualifier <;> decide

theorem Directive.readPrecision_eq (hvalid : d.Valid mem) {c : UInt8} (hc : EndsPrecision c)
    (fmt : List UInt8) (args : List ℕ) :
    readPrecision (d.precisionBytes ++ c :: fmt) ((d.precision.map Amount.args).getD [] ++ args) =
      .ok (amountInt d.fieldPrecision, c :: fmt, args) := by
  unfold Directive.precisionBytes Directive.fieldPrecision
  cases hprecision : d.precision with
  | none => exact readPrecision_none hc.2 fmt args
  | some amount =>
    obtain ⟨hamount, hvalue⟩ := hvalid.precision amount hprecision
    exact readPrecision_some hamount hvalue hc.1.2.1 hc.1.2.2 fmt args

/-- Where the width ends. -/
theorem Directive.precisionBytes_head (d : Directive) {c : UInt8} (hc : EndsPrecision c)
    (fmt : List UInt8) :
    ∃ b rest, d.precisionBytes ++ c :: fmt = b :: rest ∧ EndsWidth b := by
  unfold Directive.precisionBytes
  cases d.precision with
  | none => exact ⟨c, fmt, rfl, hc.1⟩
  | some amount =>
    refine ⟨0x2e, _, rfl, ?_⟩
    unfold EndsWidth
    rw [endsFlags_iff]
    decide

theorem Directive.readWidth_eq (hvalid : d.Valid mem) {c : UInt8} (hc : EndsWidth c)
    (fmt : List UInt8) (args : List ℕ) :
    readWidth (d.flags.foldl PrintFlags.set noFlags) (d.widthBytes ++ c :: fmt)
        ((d.width.map Amount.args).getD [] ++ args) =
      .ok (d.flagBits, amountInt d.fieldWidth, c :: fmt, args) := by
  unfold Directive.widthBytes Directive.flagBits Directive.fieldWidth
  cases hwidth : d.width with
  | none => exact readWidth_none _ hc.2.1 hc.2.2 fmt args
  | some amount =>
    obtain ⟨hamount, hleads, hvalue⟩ := hvalid.width amount hwidth
    exact readWidth_some _ hamount hleads hvalue hc.2.1 fmt args

/-- Where the flags end. -/
theorem Directive.widthBytes_head (hvalid : d.Valid mem) {c : UInt8} (hc : EndsWidth c)
    (fmt : List UInt8) :
    ∃ b rest, d.widthBytes ++ c :: fmt = b :: rest ∧ EndsFlags b := by
  unfold Directive.widthBytes
  cases hwidth : d.width with
  | none => exact ⟨c, fmt, rfl, hc.1⟩
  | some amount =>
    obtain ⟨hamount, hleads, -⟩ := hvalid.width amount hwidth
    cases amount with
    | digits ds =>
      obtain ⟨b, rest, rfl, hzero⟩ := hleads
      have hdigit : isdigit b := hamount b List.mem_cons_self
      refine ⟨b, _, rfl, endsFlags_iff.mpr ⟨?_, ?_, ?_, ?_, hzero⟩⟩
      all_goals
        rintro rfl
        exact absurd hdigit (by decide)
    | star arg => exact ⟨0x2a, _, rfl, endsFlags_iff.mpr (by decide)⟩

/-- What no flag changes is as without flags. -/
theorem Directive.flagBits_eq (d : Directive) {g : PrintFlags → Bool}
    (hset : ∀ flags flag, g (flags.set flag) = g flags) : g d.flagBits = g noFlags := by
  have hfold : ∀ (fs : List PrintFlag) (flags : PrintFlags),
      g (fs.foldl PrintFlags.set flags) = g flags := by
    intro fs
    induction fs with
    | nil => exact fun flags => rfl
    | cons flag fs ih => exact fun flags => (ih _).trans (hset flags flag)
  unfold Directive.flagBits
  cases d.width with
  | none => exact hfold d.flags noFlags
  | some amount =>
    by_cases hneg : amount.value < 0
    · simp only [if_pos hneg]
      exact (hset _ .left).trans (hfold d.flags noFlags)
    · simp only [if_neg hneg]
      exact hfold d.flags noFlags

/-- No character of a directive sets the flag `SIGN`. -/
theorem Directive.flagBits_sign (d : Directive) : d.flagBits.sign = false :=
  d.flagBits_eq (g := PrintFlags.sign) fun flags flag => by cases flag <;> rfl

/-- No character of a directive sets the flag `SMALL`. -/
theorem Directive.flagBits_small (d : Directive) : d.flagBits.small = false :=
  d.flagBits_eq (g := PrintFlags.small) fun flags flag => by cases flag <;> rfl

/-- **The code of a directive does what the directive stands for**. -/
theorem Directive.directive_eq (hvalid : d.Valid mem) (pos : ℕ) (fmt : List UInt8)
    (args : List ℕ) :
    directive mem pos (d.body ++ fmt) (d.args ++ args) =
      .ok ⟨d.text, d.conversion.stores pos, args, fmt⟩ := by
  obtain ⟨q, afterPrecision, hq, hqends⟩ := d.qualifierBytes_head hvalid fmt
  obtain ⟨p, afterWidth, hp, hpends⟩ := d.precisionBytes_head hqends afterPrecision
  obtain ⟨w, afterFlags, hw, hwends⟩ := d.widthBytes_head hvalid hpends afterWidth
  have hbody : d.body ++ fmt = d.flags.map PrintFlag.byte ++ w :: afterFlags := by
    rw [← hw, ← hp, ← hq]
    simp [Directive.body]
  have hprecision : ∀ n ∈ d.fieldPrecision, n < 2147483640 := by
    intro n hn
    obtain ⟨amount, hamount, rfl⟩ := Option.mem_map.mp hn
    have := (hvalid.precision amount hamount).2
    omega
  unfold directive
  rw [hbody, readFlags_eq noFlags d.flags hwends, Run.ok_bind, ← hw]
  simp only [Directive.args, List.append_assoc]
  rw [d.readWidth_eq hvalid hpends, Run.ok_bind, ← hp]
  simp only
  rw [d.readPrecision_eq hvalid hqends, Run.ok_bind, ← hq]
  simp only
  rw [d.readQualifier_eq hvalid, Run.ok_bind]
  exact convert_eq hvalid.conversion pos d.flagBits_sign d.fieldWidth hprecision d.qualifier args
    fmt

end Directive

/-! ## The loop -/

theorem emit_needs {room need : ℕ} (out text : List UInt8)
    (hneed : need = out.length + text.length) :
    Run.Needs .outOfBounds room need (emit room out text) (· = out ++ text) := by
  subst hneed
  constructor
  · intro h
    exact ⟨out ++ text, by rw [emit, if_pos h], rfl⟩
  · intro h
    rw [emit, if_neg (by omega)]

/-- The loop from any item of a format on. -/
theorem vsprintfLoop_needs {mem : List UInt8} {items : List FormatItem}
    (hvalid : ∀ item ∈ items, item.Valid mem) (room : ℕ) (post : List UInt8) (args : List ℕ)
    (rounds : ℕ) (hrounds : items.length < rounds) (p : Printed) :
    Run.Needs .outOfBounds room (p.out.length + (formatText items).length + 1)
      (vsprintfLoop mem room rounds (formatBytes items ++ 0 :: post) (formatArgs items ++ args) p)
      (· = ⟨p.out ++ formatText items, p.stores ++ formatStores p.out.length items⟩) := by
  induction items generalizing rounds p with
  | nil =>
    obtain ⟨rounds, rfl⟩ : ∃ n, rounds = n + 1 := ⟨rounds - 1, by omega⟩
    have hstep : vsprintfLoop mem room (rounds + 1) (formatBytes [] ++ 0 :: post)
        (formatArgs [] ++ args) p = emit room p.out [0] >>= fun _ => .ok p := rfl
    rw [hstep]
    apply (emit_needs p.out [0] rfl).bind (by simp [formatText])
    intro hfits _ _
    apply Run.needs_ok
    · simp [formatText, formatStores]
    · simpa [formatText] using hfits
  | cons item items ih =>
    obtain ⟨rounds, rfl⟩ : ∃ n, rounds = n + 1 := ⟨rounds - 1, by omega⟩
    rw [List.length_cons] at hrounds
    have hrest := fun q => ih (fun i hi => hvalid i (List.mem_cons_of_mem _ hi))
      rounds (by omega) q
    have hitem := hvalid item List.mem_cons_self
    -- The round of the item: it writes the text of the item, and leaves the rest of the format.
    have hstep : vsprintfLoop mem room (rounds + 1) (formatBytes (item :: items) ++ 0 :: post)
        (formatArgs (item :: items) ++ args) p =
        emit room p.out item.text >>= fun out =>
          vsprintfLoop mem room rounds (formatBytes items ++ 0 :: post) (formatArgs items ++ args)
            ⟨out, p.stores ++ item.stores p.out.length⟩ := by
      cases item with
      | literal c =>
        simp only [formatBytes, formatArgs, List.flatMap_cons, FormatItem.bytes, FormatItem.args,
          FormatItem.text, FormatItem.stores, List.cons_append, List.nil_append, List.append_nil]
        rw [vsprintfLoop, peek, Run.ok_bind, if_neg hitem.1, if_neg hitem.2]
        rfl
      | directive d =>
        simp only [formatBytes, formatArgs, List.flatMap_cons, FormatItem.bytes, FormatItem.args,
          FormatItem.text, FormatItem.stores, List.cons_append, List.append_assoc]
        rw [vsprintfLoop, peek, Run.ok_bind, if_neg (by decide), if_pos rfl, List.tail_cons,
          Directive.directive_eq hitem, Run.ok_bind]
    rw [hstep]
    apply (emit_needs p.out item.text rfl).bind
    · simp only [formatText, List.flatMap_cons, List.length_append]
      omega
    · rintro hfits out rfl
      have hneed := hrest ⟨p.out ++ item.text, p.stores ++ item.stores p.out.length⟩
      simpa only [formatText, formatStores, List.flatMap_cons, List.length_append,
        List.append_assoc, Nat.add_assoc] using hneed

theorem items_length_le (items : List FormatItem) : items.length ≤ (formatBytes items).length := by
  induction items with
  | nil => exact Nat.zero_le _
  | cons item items ih =>
    have hitem : 1 ≤ item.bytes.length := by
      cases item <;> simp [FormatItem.bytes]
    simp only [formatBytes, List.flatMap_cons, List.length_append, List.length_cons] at ih ⊢
    omega

/-- **`vsprintf` writes the text of the format**, if the buffer has room for it and its NUL, and
otherwise it writes behind the buffer. -/
theorem vsprintf_writes {mem : List UInt8} {items : List FormatItem}
    (hvalid : ∀ item ∈ items, item.Valid mem) (room : ℕ) (post : List UInt8) (args : List ℕ) :
    vsprintf mem room (formatBytes items ++ 0 :: post) (formatArgs items ++ args) =
      if (formatText items).length < room then .ok ⟨formatText items, formatStores 0 items⟩
      else .error .outOfBounds := by
  have hrounds : items.length < (formatBytes items ++ 0 :: post).length + 1 := by
    have := items_length_le items
    rw [List.length_append]
    omega
  have hneeds := vsprintfLoop_needs hvalid room post args _ hrounds ⟨[], []⟩
  simp only [List.length_nil, Nat.zero_add, List.nil_append] at hneeds
  unfold vsprintf
  split_ifs with hfits
  · obtain ⟨p, hp, rfl⟩ := hneeds.fits hfits
    exact hp
  · exact hneeds.outgrows (by omega)

end Ahos
