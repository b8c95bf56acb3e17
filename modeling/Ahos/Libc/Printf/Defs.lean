import Ahos.Mem.Memory

/-!
# `vsprintf`

`printf.c` up to `sprintf`. The format is the list of the bytes that can be read from a pointer
on, and reading past its end halts. The arguments are the 32-bit words that `va_arg` takes one
after the other; the word of a `%s` is an index into the memory. What is read as an `int`, by
`skip_atoi` and for a `*`, wraps as the clock does. The subtractions from it are those of integers:
below the least `int`, where C leaves them undefined, they are not modelled. What `%n` stores is
recorded, and is part neither of the memory that a `%s` reads nor of the format.
-/

namespace Ahos

/-- `isdigit`. -/
def isdigit (c : UInt8) : Prop := 0x30 ≤ c ∧ c ≤ 0x39

instance (c : UInt8) : Decidable (isdigit c) := inferInstanceAs (Decidable (_ ∧ _))

/-- A negative `long`. -/
def isNegative (num : ℕ) : Prop := 2147483648 ≤ num

instance (num : ℕ) : Decidable (isNegative num) := inferInstanceAs (Decidable (_ ≤ _))

/-- The value of a word as an `int`. -/
def toInt32 (arg : ℕ) : ℤ := if isNegative arg then (arg : ℤ) - 4294967296 else arg

/-- `skip_atoi`, with the word so far: the number and the rest of the text. -/
def skipAtoiFrom : ℕ → List UInt8 → Outcome (ℤ × List UInt8)
  | _, [] => .error .outOfBounds
  | i, c :: s =>
    if isdigit c then skipAtoiFrom (Word32.wrap (i * 10 + (c.toNat - 0x30))) s
    else .ok (toInt32 i, c :: s)

/-- `skip_atoi`. -/
def skipAtoi (s : List UInt8) : Outcome (ℤ × List UInt8) := skipAtoiFrom 0 s

/-- The bits of the flags. -/
structure PrintFlags where
  zeropad : Bool
  sign : Bool
  plus : Bool
  space : Bool
  left : Bool
  small : Bool
  special : Bool
deriving DecidableEq, Repr

/-- No flag. -/
def noFlags : PrintFlags := ⟨false, false, false, false, false, false, false⟩

/-! ## Numbers -/

/-- `"0123456789ABCDEF"`. -/
def printDigits : List UInt8 :=
  [0x30, 0x31, 0x32, 0x33, 0x34, 0x35, 0x36, 0x37, 0x38, 0x39, 0x41, 0x42, 0x43, 0x44, 0x45, 0x46]

/-- The loop that writes the digits of `num` into `tmp`, the lowest first, with so many bytes of
`tmp` left. -/
def tmpDigits (base : ℕ) (locase : UInt8) : ℕ → ℕ → Outcome (List UInt8)
  | 0, num => if num = 0 then .ok [] else .error .outOfBounds
  | left + 1, num =>
    if num = 0 then .ok [] else do
      let digit ← readCell printDigits (num % base)
      let rest ← tmpDigits base locase left (num / base)
      return (digit ||| locase) :: rest

/-- `while (size-- > 0) *str++ = c;`: what it writes, and `size` behind it. -/
def padWhile (c : UInt8) (size : ℤ) : List UInt8 × ℤ :=
  (List.replicate size.toNat c, min size 0 - 1)

/-- The sign of a number (0 for none), its magnitude, and the width that is left. The negation of
the least number wraps. -/
def numberSign (type : PrintFlags) (num : ℕ) (size : ℤ) : UInt8 × ℕ × ℤ :=
  if type.sign then
    if isNegative num then (0x2d, Word32.sub 0 num, size - 1)
    else if type.plus then (0x2b, num, size - 1)
    else if type.space then (0x20, num, size - 1)
    else (0, num, size)
  else (0, num, size)

/-- The width that the prefix of the base leaves. -/
def numberSize (type : PrintFlags) (base : ℕ) (size : ℤ) : ℤ :=
  if type.special then if base = 16 then size - 2 else if base = 8 then size - 1 else size else size

/-- The digits in `tmp`, the lowest first. -/
def numberTmp (base : ℕ) (locase : UInt8) (num : ℕ) : Outcome (List UInt8) :=
  if num = 0 then .ok [0x30] else tmpDigits base locase 66 num

/-- What `number` writes once the digits are in `tmp`. -/
def numberWrite (type : PrintFlags) (c sign locase : UInt8) (base : ℕ) (size precision : ℤ)
    (tmp : List UInt8) : List UInt8 :=
  let precision := if precision < tmp.length then (tmp.length : ℤ) else precision
  let size := size - precision
  let (spaces, size) := if type.zeropad ∨ type.left then ([], size) else padWhile 0x20 size
  let signText := if sign ≠ 0 then [sign] else []
  let special :=
    if type.special then
      if base = 8 then [0x30] else if base = 16 then [0x30, 0x58 ||| locase] else []
    else []
  let (pad, size) := if type.left then ([], size) else padWhile c size
  let zeros := List.replicate (precision - tmp.length).toNat 0x30
  let (tail, _) := padWhile 0x20 size
  spaces ++ signText ++ special ++ pad ++ zeros ++ tmp.reverse ++ tail

/-- A field to the left is not padded with zeros. -/
def clearZeropad (type : PrintFlags) : PrintFlags :=
  if type.left then { type with zeropad := false } else type

/-- `number`: what it writes, or `none` where it returns `NULL`. -/
def number (num base : ℕ) (size precision : ℤ) (type : PrintFlags) :
    Outcome (Option (List UInt8)) :=
  let locase : UInt8 := if type.small then 0x20 else 0
  let type := clearZeropad type
  if base < 2 ∨ 16 < base then return none
  else do
    let c : UInt8 := if type.zeropad then 0x30 else 0x20
    let (sign, num, size) := numberSign type num size
    let size := numberSize type base size
    let tmp ← numberTmp base locase num
    return some (numberWrite type c sign locase base size precision tmp)

/-! ## Reading a directive -/

/-- `*fmt`. -/
def peek : List UInt8 → Outcome UInt8
  | [] => .error .outOfBounds
  | c :: _ => .ok c

/-- `va_arg`: the next word and the words behind it. -/
def vaArg : List ℕ → Outcome (ℕ × List ℕ)
  | [] => .error .outOfBounds
  | arg :: args => .ok (arg, args)

/-- The flags of a directive: the loop at `repeat`, behind its `++fmt`. -/
def readFlags : PrintFlags → List UInt8 → Outcome (PrintFlags × List UInt8)
  | _, [] => .error .outOfBounds
  | flags, c :: fmt =>
    if c = 0x2d then readFlags { flags with left := true } fmt
    else if c = 0x2b then readFlags { flags with plus := true } fmt
    else if c = 0x20 then readFlags { flags with space := true } fmt
    else if c = 0x23 then readFlags { flags with special := true } fmt
    else if c = 0x30 then readFlags { flags with zeropad := true } fmt
    else .ok (flags, c :: fmt)

/-- The field width: digits or `*`. A negative argument is negated, for a width to the left. -/
def readWidth (flags : PrintFlags) (fmt : List UInt8) (args : List ℕ) :
    Outcome (PrintFlags × ℤ × List UInt8 × List ℕ) := do
  let c ← peek fmt
  if isdigit c then
    let (width, fmt) ← skipAtoi fmt
    return (flags, width, fmt, args)
  else if c = 0x2a then
    let (arg, args) ← vaArg args
    if toInt32 arg < 0 then
      return ({ flags with left := true }, toInt32 (Word32.sub 0 arg), fmt.tail, args)
    else return (flags, toInt32 arg, fmt.tail, args)
  else return (flags, -1, fmt, args)

/-- The precision behind a `.`: digits, `*` or nothing. -/
def readPrecision (fmt : List UInt8) (args : List ℕ) : Outcome (ℤ × List UInt8 × List ℕ) := do
  let c ← peek fmt
  if c = 0x2e then
    let fmt := fmt.tail
    let c ← peek fmt
    let (precision, fmt, args) ←
      if isdigit c then do
        let (precision, fmt) ← skipAtoi fmt
        pure (precision, fmt, args)
      else if c = 0x2a then do
        let (arg, args) ← vaArg args
        pure (toInt32 arg, fmt.tail, args)
      else pure (-1, fmt, args)
    return (if precision < 0 then 0 else precision, fmt, args)
  else return (-1, fmt, args)

/-- The qualifier: `h`, `l` or `L`. -/
def readQualifier (fmt : List UInt8) : Outcome (Option UInt8 × List UInt8) := do
  let c ← peek fmt
  if c = 0x68 ∨ c = 0x6c ∨ c = 0x4c then return (some c, fmt.tail) else return (none, fmt)

/-! ## Conversions -/

/-- `strnlen`, with the count so far: it also reads the byte at `maxlen`. -/
def strnlenFrom (maxlen : ℕ) : ℕ → List UInt8 → Outcome ℕ
  | _, [] => .error .outOfBounds
  | len, c :: s => if c ≠ 0 ∧ len < maxlen then strnlenFrom maxlen (len + 1) s else .ok len

/-- `strnlen`. -/
def strnlen (mem : List UInt8) (s maxlen : ℕ) : Outcome ℕ := strnlenFrom maxlen 0 (mem.drop s)

/-- The integer of a numeric conversion. -/
def readInteger (flags : PrintFlags) (qualifier : Option UInt8) (arg : ℕ) : ℕ :=
  if qualifier = some 0x68 then
    let num := arg % 65536
    if flags.sign ∧ 32768 ≤ num then num + 4294901760 else num
  else arg

/-- What a directive does: the text it writes, the stores of `%n`, the arguments it leaves, and
where the loop goes on in the format. -/
structure Converted where
  text : List UInt8
  stores : List (ℕ × ℕ)
  args : List ℕ
  fmt : List UInt8
deriving DecidableEq, Repr

/-- The call of `number` in `vsprintf`, which would write through its `NULL`. -/
def writeNumber (num base : ℕ) (size precision : ℤ) (type : PrintFlags) : Outcome (List UInt8) := do
  match ← number num base size precision type with
  | some text => return text
  | none => .error .outOfBounds

/-- The rest of the directive for an integer, behind the flags of its conversion. -/
def convertInteger (flags : PrintFlags) (base : ℕ) (width precision : ℤ)
    (qualifier : Option UInt8) (args : List ℕ) (fmt : List UInt8) : Outcome Converted := do
  let (arg, args) ← vaArg args
  let text ← writeNumber (readInteger flags qualifier arg) base width precision flags
  return ⟨text, [], args, fmt⟩

/-- The `switch` over the conversion character, which the loop then steps over. `pos` is
`str - buf`. -/
def convert (mem : List UInt8) (pos : ℕ) (flags : PrintFlags) (width precision : ℤ)
    (qualifier : Option UInt8) (args : List ℕ) (fmt : List UInt8) : Outcome Converted := do
  let c ← peek fmt
  if c = 0x63 then
    let pad := List.replicate (width - 1).toNat 0x20
    let (arg, args) ← vaArg args
    let byte := UInt8.ofNat arg
    return ⟨if flags.left then byte :: pad else pad ++ [byte], [], args, fmt.tail⟩
  else if c = 0x73 then
    let (arg, args) ← vaArg args
    let len ← strnlen mem arg (precision % 4294967296).toNat
    let pad := List.replicate (width - len).toNat 0x20
    let text := (mem.drop arg).take len
    return ⟨if flags.left then text ++ pad else pad ++ text, [], args, fmt.tail⟩
  else if c = 0x70 then
    let (arg, args) ← vaArg args
    let text ←
      if width = -1 then writeNumber arg 16 8 precision { flags with zeropad := true }
      else writeNumber arg 16 width precision flags
    return ⟨text, [], args, fmt.tail⟩
  else if c = 0x6e then
    let (arg, args) ← vaArg args
    return ⟨[], [(arg, pos)], args, fmt.tail⟩
  else if c = 0x25 then return ⟨[0x25], [], args, fmt.tail⟩
  else if c = 0x6f then convertInteger flags 8 width precision qualifier args fmt.tail
  else if c = 0x78 then
    convertInteger { flags with small := true } 16 width precision qualifier args fmt.tail
  else if c = 0x58 then convertInteger flags 16 width precision qualifier args fmt.tail
  else if c = 0x64 ∨ c = 0x69 then
    convertInteger { flags with sign := true } 10 width precision qualifier args fmt.tail
  else if c = 0x75 then convertInteger flags 10 width precision qualifier args fmt.tail
  -- At the end of the format the `%` stands for itself, and the loop finds the NUL again.
  else if c = 0 then return ⟨[0x25], [], args, fmt⟩
  else return ⟨[0x25, c], [], args, fmt.tail⟩

/-- A directive, from behind its `%` on. -/
def directive (mem : List UInt8) (pos : ℕ) (fmt : List UInt8) (args : List ℕ) :
    Outcome Converted := do
  let (flags, fmt) ← readFlags noFlags fmt
  let (flags, width, fmt, args) ← readWidth flags fmt args
  let (precision, fmt, args) ← readPrecision fmt args
  let (qualifier, fmt) ← readQualifier fmt
  convert mem pos flags width precision qualifier args fmt

/-! ## The loop -/

/-- Writing a text behind `out` into a buffer of `room` bytes. -/
def emit (room : ℕ) (out text : List UInt8) : Outcome (List UInt8) :=
  if out.length + text.length ≤ room then .ok (out ++ text) else .error .outOfBounds

/-- The bytes from `buf` up to `str`, and what `%n` has stored. -/
structure Printed where
  out : List UInt8
  stores : List (ℕ × ℕ)
deriving DecidableEq, Repr

/-- The loop of `vsprintf` for a bounded number of rounds, and the final NUL. -/
def vsprintfLoop (mem : List UInt8) (room : ℕ) :
    ℕ → List UInt8 → List ℕ → Printed → Outcome Printed
  | 0, _, _, _ => .error .loops
  | rounds + 1, fmt, args, p => do
    let c ← peek fmt
    if c = 0 then
      let _ ← emit room p.out [0]
      return p
    else if c = 0x25 then
      let r ← directive mem p.out.length fmt.tail args
      let out ← emit room p.out r.text
      vsprintfLoop mem room rounds r.fmt r.args ⟨out, p.stores ++ r.stores⟩
    else
      let out ← emit room p.out [c]
      vsprintfLoop mem room rounds fmt.tail args ⟨out, p.stores⟩

/-- `vsprintf` into a buffer of `room` bytes: the string that it leaves there, whose length it
returns. Each round reads a byte, so that more rounds than bytes never take place. -/
def vsprintf (mem : List UInt8) (room : ℕ) (fmt : List UInt8) (args : List ℕ) : Outcome Printed :=
  vsprintfLoop mem room (fmt.length + 1) fmt args ⟨[], []⟩

/-- `sprintf`. -/
def sprintf (mem : List UInt8) (room : ℕ) (fmt : List UInt8) (args : List ℕ) : Outcome Printed :=
  vsprintf mem room fmt args

end Ahos
