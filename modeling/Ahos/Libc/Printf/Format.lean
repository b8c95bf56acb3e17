import Ahos.Libc.Printf.Number

/-!
# Formats

A format is a sequence of characters and directives. A directive has flags, a field width, a
precision, a qualifier and a conversion, which come with the arguments that they take.
`vsprintf` writes the texts of the directives, one after the other, and stops with an access
outside the buffer where they do not fit with their NUL.
-/

namespace Ahos

/-- The characters of a string literal, without its NUL. -/
def ascii (s : String) : List UInt8 := s.toList.map fun c => UInt8.ofNat c.toNat

/-! ## The parts of a directive -/

/-- A character that sets a flag. -/
inductive PrintFlag where
  | left
  | plus
  | space
  | special
  | zeropad
deriving DecidableEq, Repr

/-- `-`, `+`, a space, `#` or `0`. -/
def PrintFlag.byte : PrintFlag → UInt8
  | left => 0x2d
  | plus => 0x2b
  | space => 0x20
  | special => 0x23
  | zeropad => 0x30

/-- The flags with one more. -/
def PrintFlags.set (flags : PrintFlags) : PrintFlag → PrintFlags
  | .left => { flags with left := true }
  | .plus => { flags with plus := true }
  | .space => { flags with space := true }
  | .special => { flags with special := true }
  | .zeropad => { flags with zeropad := true }

/-- A field width or a precision: digits, or `*` with its argument. -/
inductive Amount where
  | digits (ds : List UInt8)
  | star (arg : ℕ)
deriving DecidableEq, Repr

/-- The characters of the amount. -/
def Amount.bytes : Amount → List UInt8
  | digits ds => ds
  | star _ => [0x2a]

/-- The arguments of the amount. -/
def Amount.args : Amount → List ℕ
  | digits _ => []
  | star arg => [arg]

/-- The number that decimal digits denote. -/
def decimalValue (ds : List UInt8) : ℕ := ds.foldl (fun i c => i * 10 + (c.toNat - 0x30)) 0

/-- The number that the amount stands for. -/
def Amount.value : Amount → ℤ
  | digits ds => decimalValue ds
  | star arg => toInt32 arg

/-- `h`, `l` or `L`. -/
inductive Qualifier where
  | short
  | long
  | double
deriving DecidableEq, Repr

/-- The character of the qualifier. -/
def Qualifier.byte : Qualifier → UInt8
  | short => 0x68
  | long => 0x6c
  | double => 0x4c

/-- The conversions of an integer: `o`, `x`, `X`, `d`, `i` and `u`. -/
inductive IntegerKind where
  | octal
  | lowerHex
  | upperHex
  | decimal
  | integer
  | unsigned
deriving DecidableEq, Repr

/-- The character of the conversion. -/
def IntegerKind.byte : IntegerKind → UInt8
  | octal => 0x6f
  | lowerHex => 0x78
  | upperHex => 0x58
  | decimal => 0x64
  | integer => 0x69
  | unsigned => 0x75

/-- The base of the conversion. -/
def IntegerKind.base : IntegerKind → ℕ
  | octal => 8
  | lowerHex => 16
  | upperHex => 16
  | decimal => 10
  | integer => 10
  | unsigned => 10

/-- The flags with those of the conversion. -/
def IntegerKind.flags (flags : PrintFlags) : IntegerKind → PrintFlags
  | lowerHex => { flags with small := true }
  | decimal => { flags with sign := true }
  | integer => { flags with sign := true }
  | _ => flags

/-- The integer that a conversion reads from its argument. -/
def integerValue (signed : Bool) (qualifier : Option Qualifier) (arg : ℕ) : ℤ :=
  let modulus : ℕ := if qualifier = some .short then 65536 else 4294967296
  if signed then (arg : ℤ).bmod modulus else (arg % modulus : ℕ)

/-- A conversion with its argument. The argument of `%s` comes with the string that it points to. -/
inductive Conversion where
  | char (arg : ℕ)
  | string (arg : ℕ) (w : List UInt8)
  | pointer (arg : ℕ)
  | count (arg : ℕ)
  | percent
  | integer (kind : IntegerKind) (arg : ℕ)
  /-- A character that is no conversion. -/
  | other (c : UInt8)
deriving DecidableEq, Repr

/-- The character of the conversion. -/
def Conversion.byte : Conversion → UInt8
  | char _ => 0x63
  | string _ _ => 0x73
  | pointer _ => 0x70
  | count _ => 0x6e
  | percent => 0x25
  | integer kind _ => kind.byte
  | other c => c

/-- The arguments of the conversion. -/
def Conversion.args : Conversion → List ℕ
  | char arg => [arg]
  | string arg _ => [arg]
  | pointer arg => [arg]
  | count arg => [arg]
  | percent => []
  | integer _ arg => [arg]
  | other _ => []

/-- A text in a field that is padded with spaces. -/
def padSpaces (flags : PrintFlags) (width : ℕ) (body : List UInt8) : List UInt8 :=
  padText { flags with zeropad := false } width [] body

/-- The text of the conversion. -/
def Conversion.text (flags : PrintFlags) (width precision : Option ℕ)
    (qualifier : Option Qualifier) : Conversion → List UInt8
  | char arg => padSpaces flags (width.getD 0) [UInt8.ofNat arg]
  | string _ w => padSpaces flags (width.getD 0) (w.take (precision.getD w.length))
  | pointer arg =>
    match width with
    | none => numberText { flags with zeropad := true } 16 8 (precision.getD 0) arg
    | some width => numberText flags 16 width (precision.getD 0) arg
  | count _ => []
  | percent => [0x25]
  | integer kind arg =>
    numberText (kind.flags flags) kind.base (width.getD 0) (precision.getD 0)
      (integerValue (kind.flags flags).sign qualifier arg)
  | other c => [0x25, c]

/-- What the conversion stores, behind `pos` characters. -/
def Conversion.stores (pos : ℕ) : Conversion → List (ℕ × ℕ)
  | count arg => [(arg, pos)]
  | _ => []

/-! ## Directives -/

/-- A directive. -/
structure Directive where
  flags : List PrintFlag
  width : Option Amount
  precision : Option Amount
  qualifier : Option Qualifier
  conversion : Conversion
deriving DecidableEq, Repr

namespace Directive

/-- The characters of the precision: a `.` and its amount. -/
def precisionBytes (d : Directive) : List UInt8 :=
  match d.precision with
  | some amount => 0x2e :: amount.bytes
  | none => []

/-- The characters of the field width. -/
def widthBytes (d : Directive) : List UInt8 := (d.width.map Amount.bytes).getD []

/-- The character of the qualifier. -/
def qualifierBytes (d : Directive) : List UInt8 := (d.qualifier.map Qualifier.byte).toList

/-- The characters of the directive behind its `%`. -/
def body (d : Directive) : List UInt8 :=
  d.flags.map PrintFlag.byte ++ (d.widthBytes ++ (d.precisionBytes ++
    (d.qualifierBytes ++ [d.conversion.byte])))

/-- The arguments of the directive. -/
def args (d : Directive) : List ℕ :=
  (d.width.map Amount.args).getD [] ++ ((d.precision.map Amount.args).getD [] ++ d.conversion.args)

/-- The flags of the directive. A negative width is one to the left. -/
def flagBits (d : Directive) : PrintFlags :=
  let flags := d.flags.foldl PrintFlags.set noFlags
  match d.width with
  | some amount => if amount.value < 0 then { flags with left := true } else flags
  | none => flags

/-- The field width. -/
def fieldWidth (d : Directive) : Option ℕ := d.width.map fun amount => amount.value.natAbs

/-- The precision. A negative one is zero. -/
def fieldPrecision (d : Directive) : Option ℕ := d.precision.map fun amount => amount.value.toNat

/-- The text that the directive stands for. -/
def text (d : Directive) : List UInt8 :=
  d.conversion.text d.flagBits d.fieldWidth d.fieldPrecision d.qualifier

end Directive

/-! ## Formats -/

/-- A character or a directive. -/
inductive FormatItem where
  | literal (c : UInt8)
  | directive (d : Directive)
deriving DecidableEq, Repr

namespace FormatItem

/-- The characters of the item. -/
def bytes : FormatItem → List UInt8
  | literal c => [c]
  | directive d => 0x25 :: d.body

/-- The arguments of the item. -/
def args : FormatItem → List ℕ
  | literal _ => []
  | directive d => d.args

/-- The text that the item stands for. -/
def text : FormatItem → List UInt8
  | literal c => [c]
  | directive d => d.text

/-- What the item stores, behind `pos` characters. -/
def stores (pos : ℕ) : FormatItem → List (ℕ × ℕ)
  | literal _ => []
  | directive d => d.conversion.stores pos

end FormatItem

/-- The characters of a format. -/
def formatBytes (items : List FormatItem) : List UInt8 := items.flatMap FormatItem.bytes

/-- The arguments of a format. -/
def formatArgs (items : List FormatItem) : List ℕ := items.flatMap FormatItem.args

/-- The text that a format stands for. -/
def formatText (items : List FormatItem) : List UInt8 := items.flatMap FormatItem.text

/-- What a format stores, behind `pos` characters. -/
def formatStores (pos : ℕ) : List FormatItem → List (ℕ × ℕ)
  | [] => []
  | item :: items => item.stores pos ++ formatStores (pos + item.text.length) items

/-! ## Well-formed formats -/

/-- Digits, or a word. -/
def Amount.Valid : Amount → Prop
  | digits ds => ∀ c ∈ ds, isdigit c
  | star arg => arg < 4294967296

/-- The digits of a width are not empty and do not start with a `0`, which is a flag. -/
def Amount.Leads : Amount → Prop
  | digits ds => ∃ c rest, ds = c :: rest ∧ c ≠ 0x30
  | star _ => True

/-- The argument is a word, and the string is where it says. -/
def Conversion.Valid (mem : List UInt8) : Conversion → Prop
  | .string arg w => (∃ post, mem.drop arg = w ++ 0 :: post) ∧ 0 ∉ w ∧ w.length < 2147483648
  | .other c => c ∉ [0, 0x2d, 0x2b, 0x20, 0x23, 0x2a, 0x2e, 0x68, 0x6c, 0x4c, 0x63, 0x73, 0x70,
      0x6e, 0x25, 0x6f, 0x78, 0x58, 0x64, 0x69, 0x75] ∧ ¬isdigit c
  | conversion => ∀ arg ∈ conversion.args, arg < 4294967296

/-- The directive is one that can stand in a format. The bounds keep what `number` computes from
the width and the precision an `int`. -/
structure Directive.Valid (mem : List UInt8) (d : Directive) : Prop where
  width : ∀ amount ∈ d.width, amount.Valid ∧ amount.Leads ∧ amount.value.natAbs < 2147483640
  precision : ∀ amount ∈ d.precision, amount.Valid ∧ amount.value < 2147483640
  conversion : d.conversion.Valid mem

/-- The item is one that can stand in a format. -/
def FormatItem.Valid (mem : List UInt8) : FormatItem → Prop
  | literal c => c ≠ 0 ∧ c ≠ 0x25
  | directive d => d.Valid mem

end Ahos
