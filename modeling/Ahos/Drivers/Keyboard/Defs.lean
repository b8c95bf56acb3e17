import Ahos.Drivers.Ps2driver

/-!
# The keyboard

`keyboard.c`: the state machine that turns the bytes of scan code set 2 into key codes. Each
call of `keyboard_task` handles one state. A sequence has at most eight bytes, and how many
bytes are still missing is only known from the bytes read so far.
-/

namespace Ahos

/-- `enum keycode`. -/
inductive Keycode where
  | keyUnk | keyA | keyB | keyC | keyD | keyE | keyF | keyG | keyH | keyI | keyJ | keyK | keyL
  | keyM | keyN | keyO | keyP | keyQ | keyR | keyS | keyT | keyU | keyV | keyW | keyX | keyY
  | keyZ | key0 | key1 | key2 | key3 | key4 | key5 | key6 | key7 | key8 | key9 | keyBkquote
  | keyHypen | keyEqual | keyBkslash | keyLbracket | keyRbracket | keySemicolon | keySquote
  | keyComma | keyDot | keySlash | keyBksp | keySpace | keyTab | keyCaps | keyLshift | keyLctrl
  | keyLalt | keyEnter | keyEsc | keyScroll | keyNum | keyLt | keyRshift | keyF1 | keyF2 | keyF3
  | keyF4 | keyF5 | keyF6 | keyF7 | keyF8 | keyF9 | keyF10 | keyF11 | keyF12 | keyKpStar
  | keyKpHyphen | keyKpMinus | keyKpPlus | keyKpDot | keyKp0 | keyKp1 | keyKp2 | keyKp3 | keyKp4
  | keyKp5 | keyKp6 | keyKp7 | keyKp8 | keyKp9 | keyLgui | keyRctrl | keyRgui | keyRalt
  | keyApps | keyInsert | keyHome | keyPgup | keyDel | keyEnd | keyPgdown | keyUp | keyLeft
  | keyDown | keyRight | keyKpDiv | keyKpEn | keyPrntScrn | keyPause
deriving DecidableEq, Repr

/-- `scan_to_key`: scan code set 2, one byte only. -/
def scanToKey : List Keycode :=
  [.keyUnk, .keyF9, .keyUnk, .keyF5, .keyF3, .keyF1, .keyF2, .keyF12,
   .keyUnk, .keyF10, .keyF8, .keyF6, .keyF4, .keyTab, .keyBkquote, .keyUnk,
   .keyUnk, .keyLalt, .keyLshift, .keyUnk, .keyLctrl, .keyQ, .key1, .keyUnk,
   .keyUnk, .keyUnk, .keyZ, .keyS, .keyA, .keyW, .key2, .keyUnk,
   .keyUnk, .keyC, .keyX, .keyD, .keyE, .key4, .key3, .keyUnk,
   .keyUnk, .keySpace, .keyV, .keyF, .keyT, .keyR, .key5, .keyUnk,
   .keyUnk, .keyN, .keyB, .keyH, .keyG, .keyY, .key6, .keyUnk,
   .keyUnk, .keyUnk, .keyM, .keyJ, .keyU, .key7, .key8, .keyUnk,
   .keyUnk, .keyComma, .keyK, .keyI, .keyO, .key0, .key9, .keyUnk,
   .keyUnk, .keyDot, .keySlash, .keyL, .keySemicolon, .keyP, .keyHypen, .keyUnk,
   .keyUnk, .keyUnk, .keySquote, .keyUnk, .keyLbracket, .keyEqual, .keyUnk, .keyUnk,
   .keyCaps, .keyRshift, .keyEnter, .keyRbracket, .keyUnk, .keyBkslash, .keyUnk, .keyUnk,
   .keyUnk, .keyLt, .keyUnk, .keyUnk, .keyUnk, .keyUnk, .keyBksp, .keyUnk,
   .keyUnk, .keyKp1, .keyUnk, .keyKp4, .keyKp7, .keyUnk, .keyUnk, .keyUnk,
   .keyKp0, .keyKpDot, .keyKp2, .keyKp5, .keyKp6, .keyKp8, .keyEsc, .keyNum,
   .keyF11, .keyKpPlus, .keyKp3, .keyKpHyphen, .keyKpStar, .keyKp9, .keyScroll, .keyUnk,
   .keyUnk, .keyUnk, .keyUnk, .keyF7, .keyUnk, .keyUnk, .keyUnk, .keyUnk]

/-- `scan_2bytes_to_key`. -/
def scan2bytesToKey : UInt8 → Keycode
  | 0x1f => .keyLgui
  | 0x14 => .keyRctrl
  | 0x27 => .keyRgui
  | 0x11 => .keyRalt
  | 0x2f => .keyApps
  | 0x70 => .keyInsert
  | 0x6c => .keyHome
  | 0x7d => .keyPgup
  | 0x71 => .keyDel
  | 0x69 => .keyEnd
  | 0x7a => .keyPgdown
  | 0x75 => .keyUp
  | 0x6b => .keyLeft
  | 0x72 => .keyDown
  | 0x74 => .keyRight
  | 0x4a => .keyKpDiv
  | 0x5a => .keyKpEn
  | _ => .keyUnk

/-- `enum keycode_type`. -/
inductive KeycodeType where
  | keytypeMake
  | keytypeBreak
deriving DecidableEq, Repr

/-- `struct keycode_res`. -/
structure KeycodeRes where
  kc : Keycode
  type : KeycodeType
deriving DecidableEq, Repr

/-- `struct scancode_seq`: the cells, the bytes read and the bytes still needed. -/
structure ScancodeSeq where
  scancodes : List UInt8
  len : ℕ
  need : ℕ
deriving DecidableEq, Repr

/-- `enum keyboard_state`. -/
inductive KeyboardState where
  | reset
  | waitScan
  | readMore
  | translate
deriving DecidableEq, Repr

/-- The static data of the driver. -/
structure Keyboard where
  keyboardDriver : Ps2driver
  kbdState : KeyboardState
  kbdSeq : ScancodeSeq
deriving DecidableEq, Repr

/-- The static data at boot. -/
def Keyboard.init : Keyboard := ⟨.init, .reset, ⟨List.replicate 8 0, 0, 0⟩⟩

/-- `keyboard_validate_sequence`. -/
def keyboardValidateSequence (expect seq : List UInt8) (len : ℕ) : Bool :=
  (List.range len).all fun i => expect[i]? == seq[i]?

/-- The branches of `keyboard_state_translate` for the keys with longer sequences: a sequence that
is not the expected one is only reported. -/
def translateLong (seq : ScancodeSeq) (expect : List UInt8) (warning : String) (res : KeycodeRes) :
    KeycodeRes × Option String :=
  (res, if keyboardValidateSequence expect seq.scancodes seq.len then none else some warning)

/-- The branches of `keyboard_state_translate` for the keys with two-byte codes, with the warning
of `scan_2bytes_to_key`. -/
def translate2bytes (scan : UInt8) (type : KeycodeType) : KeycodeRes × Option String :=
  (⟨scan2bytesToKey scan, type⟩,
    if scan2bytesToKey scan = .keyUnk then some "unknown 2 bytes scan code" else none)

/-- What `keyboard_state_translate` computes from the sequence, where `lookup` reads an entry of
`scan_to_key`: the result, and the message that it logs. -/
def translateSeqWith {m : Type → Type} [Monad m] [MonadLiftT Outcome m] (lookup : ℕ → m Keycode)
    (seq : ScancodeSeq) : m (KeycodeRes × Option String) :=
  if seq.len = 1 then do
    let scan ← readCell seq.scancodes 0
    let kc ← lookup scan.toNat
    return (⟨kc, .keytypeMake⟩, none)
  else if seq.len = 2 then do
    let first ← readCell seq.scancodes 0
    let scan ← readCell seq.scancodes 1
    if first = 0xe0 then
      return translate2bytes scan .keytypeMake
    else
      let kc ← lookup scan.toNat
      return (⟨kc, .keytypeBreak⟩, none)
  else if seq.len = 3 then do
    let scan ← readCell seq.scancodes 2
    return translate2bytes scan .keytypeBreak
  else if seq.len = 4 then
    return translateLong seq [0xe0, 0x12, 0xe0, 0x7c]
      "unexpected scancode in print screen make sequence" ⟨.keyPrntScrn, .keytypeMake⟩
  else if seq.len = 6 then
    return translateLong seq [0xe0, 0xf0, 0x7c, 0xe0, 0xf0, 0x12]
      "unexpected scancode in print screen break sequence" ⟨.keyPrntScrn, .keytypeBreak⟩
  else if seq.len = 8 then
    return translateLong seq [0xe1, 0x14, 0x77, 0xe1, 0xf0, 0x14, 0xf0, 0x77]
      "unexpected scancode in pause sequence" ⟨.keyPause, .keytypeMake⟩
  else
    return (⟨.keyUnk, .keytypeMake⟩, some "unknown sequence len")

/-- `translateSeqWith` on the table of the driver. -/
def translateSeq (seq : ScancodeSeq) : Outcome (KeycodeRes × Option String) :=
  translateSeqWith (readCell scanToKey) seq

/-- `keyboard_state_translate`. -/
def keyboardStateTranslate (kbd : Keyboard) :
    Outcome ((KeycodeRes × Option String) × Keyboard) := do
  let res ← translateSeq kbd.kbdSeq
  return (res, { kbd with kbdState := .waitScan })

/-- `keyboard_state_read_more`, after a scan code was read. -/
def keyboardStateReadMore (kbd : Keyboard) (scancode : UInt8) : Outcome Keyboard := do
  let scancodes ← writeCell kbd.kbdSeq.scancodes kbd.kbdSeq.len scancode
  let len := kbd.kbdSeq.len + 1
  let need := Word32.sub kbd.kbdSeq.need 1
  let first ← readCell scancodes 0
  let second ← readCell scancodes 1
  let third ← readCell scancodes 2
  let need :=
    if len = 2 ∧ first = 0xe0 then
      if second = 0x12 then 2 else if second = 0xf0 then 1 else need
    else if len = 3 ∧ third = 0x7c then 3
    else need
  return { kbd with
    kbdState := if need = 0 then .translate else kbd.kbdState
    kbdSeq := ⟨scancodes, len, need⟩ }

/-- `keyboard_state_wait_scan`, after a scan code was read. -/
def keyboardStateWaitScan (kbd : Keyboard) (scancode : UInt8) : Outcome Keyboard := do
  let scancodes ← writeCell kbd.kbdSeq.scancodes 0 scancode
  let seq : ScancodeSeq := { kbd.kbdSeq with scancodes := scancodes, len := 1 }
  if scancode = 0xe0 ∨ scancode = 0xf0 then
    return { kbd with kbdState := .readMore, kbdSeq := { seq with need := 1 } }
  else if scancode = 0xe1 then
    return { kbd with kbdState := .readMore, kbdSeq := { seq with need := 7 } }
  else
    return { kbd with kbdState := .translate, kbdSeq := seq }

/-- `keyboard_state_reset`. -/
def keyboardStateReset (kbd : Keyboard) : Keyboard where
  keyboardDriver := ps2driverFlushRecvQueue kbd.keyboardDriver
  kbdState := .waitScan
  kbdSeq := { kbd.kbdSeq with len := 0, need := 0 }

/-- What a call of `keyboard_task` does: the bytes that it lost, its result and the message it
logs, if any, and the static data afterwards. -/
structure TaskResult where
  lost : List UInt8
  res : Option (KeycodeRes × Option String)
  kbd : Keyboard
deriving DecidableEq, Repr

/-- The call of `ps2driver_read` in two of the states, which return when there is no scan code. -/
def readScancode (kbd : Keyboard) (mid : List UInt8) (next : Keyboard → UInt8 → Outcome Keyboard) :
    Outcome TaskResult := do
  let (scancode, lost, driver) ← ps2driverRead kbd.keyboardDriver mid
  let kbd := { kbd with keyboardDriver := driver }
  match scancode with
  | none => return ⟨lost, none, kbd⟩
  | some scancode =>
    let kbd ← next kbd scancode
    return ⟨lost, none, kbd⟩

/-- `keyboard_task`. The bytes `mid` arrive during the call: behind the size check where the call
reads the queue. -/
def keyboardTask (kbd : Keyboard) (mid : List UInt8) : Outcome TaskResult :=
  match kbd.kbdState with
  | .reset => do
    let kbd := keyboardStateReset kbd
    let (lost, driver) ← ps2driverRecvAll kbd.keyboardDriver mid
    return ⟨lost, none, { kbd with keyboardDriver := driver }⟩
  | .waitScan => readScancode kbd mid keyboardStateWaitScan
  | .readMore => readScancode kbd mid keyboardStateReadMore
  | .translate => do
    let (res, kbd) ← keyboardStateTranslate kbd
    let (lost, driver) ← ps2driverRecvAll kbd.keyboardDriver mid
    return ⟨lost, some res, { kbd with keyboardDriver := driver }⟩

end Ahos
