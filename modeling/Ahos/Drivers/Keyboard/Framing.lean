import Ahos.Drivers.Keyboard.Defs

/-!
# Sequences of scan code set 2

The key events, the bytes a keyboard sends for them, and how the state machine finds the end of
a sequence. `Framed bytes need todo` says that a reader that has read `bytes` and needs `need`
more bytes stops exactly behind `todo`. The cells of `struct scancode_seq` hold the bytes read
so far, and a complete sequence is translated to its event.
-/

namespace Ahos

/-- A key with a one-byte code in `scan_to_key`. -/
def OneByteCode : Type := { code : UInt8 // scanToKey.getD code.toNat .keyUnk ≠ .keyUnk }

/-- A key with a two-byte code in `scan_2bytes_to_key`. -/
def TwoByteCode : Type := { code : UInt8 // scan2bytesToKey code ≠ .keyUnk }

/-- The key events. The pause key has no break code. -/
inductive KeyEvent where
  | oneByte (code : OneByteCode) (type : KeycodeType)
  | twoBytes (code : TwoByteCode) (type : KeycodeType)
  | printScreen (type : KeycodeType)
  | pause

namespace KeyEvent

/-- The event as the driver reports it. -/
def result : KeyEvent → KeycodeRes
  | oneByte code type => ⟨scanToKey.getD code.1.toNat .keyUnk, type⟩
  | twoBytes code type => ⟨scan2bytesToKey code.1, type⟩
  | printScreen type => ⟨.keyPrntScrn, type⟩
  | pause => ⟨.keyPause, .keytypeMake⟩

/-- The bytes of the event in scan code set 2. -/
def encode : KeyEvent → List UInt8
  | oneByte code .keytypeMake => [code.1]
  | oneByte code .keytypeBreak => [0xf0, code.1]
  | twoBytes code .keytypeMake => [0xe0, code.1]
  | twoBytes code .keytypeBreak => [0xe0, 0xf0, code.1]
  | printScreen .keytypeMake => [0xe0, 0x12, 0xe0, 0x7c]
  | printScreen .keytypeBreak => [0xe0, 0xf0, 0x7c, 0xe0, 0xf0, 0x12]
  | pause => [0xe1, 0x14, 0x77, 0xe1, 0xf0, 0x14, 0xf0, 0x77]

theorem length_encode_le (e : KeyEvent) : e.encode.length ≤ 8 := by
  cases e with
  | oneByte code type => cases type <;> simp [encode]
  | twoBytes code type => cases type <;> simp [encode]
  | printScreen type => cases type <;> simp [encode]
  | pause => simp [encode]

end KeyEvent

/-! ## Framing -/

/-- The bytes needed after the first one. -/
def firstNeed (scancode : UInt8) : ℕ :=
  if scancode = 0xe0 ∨ scancode = 0xf0 then 1 else if scancode = 0xe1 then 7 else 0

/-- The bytes needed after `bytes`, when `need` bytes were needed before the last of them. -/
def nextNeed (bytes : List UInt8) (need : ℕ) : ℕ :=
  if bytes.length = 2 ∧ bytes[0]? = some 0xe0 then
    if bytes[1]? = some 0x12 then 2 else if bytes[1]? = some 0xf0 then 1 else need - 1
  else if bytes.length = 3 ∧ bytes[2]? = some 0x7c then 3
  else need - 1

/-- A reader of `bytes` that needs `need` more bytes stops exactly behind `todo`. -/
def Framed : List UInt8 → ℕ → List UInt8 → Prop
  | _, need, [] => need = 0
  | bytes, need, b :: todo => 0 < need ∧ Framed (bytes ++ [b]) (nextNeed (bytes ++ [b]) need) todo

theorem nextNeed_le {bytes : List UInt8} {need : ℕ} (h : need ≤ 7) : nextNeed bytes need ≤ 7 := by
  unfold nextNeed
  split_ifs <;> omega

theorem firstNeed_le (scancode : UInt8) : firstNeed scancode ≤ 7 := by
  unfold firstNeed
  split_ifs <;> omega

/-- The one-byte codes are below `0x88`, so none of them is a prefix byte. -/
theorem OneByteCode.ne_prefix (code : OneByteCode) : firstNeed code.1 = 0 := by
  have hlt : code.1.toNat < 136 := by
    by_contra hge
    apply code.2
    rw [List.getD_eq_default]
    exact Nat.le_of_not_lt hge
  have hne : ∀ b : UInt8, 136 ≤ b.toNat → code.1 ≠ b := by
    intro b hb heq
    rw [heq] at hlt
    omega
  rw [firstNeed, if_neg, if_neg (hne _ (by decide))]
  rintro (heq | heq)
  · exact hne _ (by decide) heq
  · exact hne _ (by decide) heq

/-- No two-byte code is one of the bytes that change how many bytes are needed. -/
theorem TwoByteCode.ne_patch (code : TwoByteCode) :
    code.1 ≠ 0x12 ∧ code.1 ≠ 0xf0 ∧ code.1 ≠ 0x7c := by
  refine ⟨fun heq => code.2 ?_, fun heq => code.2 ?_, fun heq => code.2 ?_⟩ <;>
  · rw [heq]
    decide

/-- **The reader finds the end of every sequence.** -/
theorem KeyEvent.framed_encode (e : KeyEvent) :
    ∃ b todo, e.encode = b :: todo ∧ Framed [b] (firstNeed b) todo := by
  cases e with
  | oneByte code type =>
    cases type with
    | keytypeMake => exact ⟨_, _, rfl, code.ne_prefix⟩
    | keytypeBreak => exact ⟨_, _, rfl, by decide, by simp [Framed, nextNeed, firstNeed]⟩
  | twoBytes code type =>
    obtain ⟨h12, hf0, h7c⟩ := code.ne_patch
    cases type with
    | keytypeMake =>
      exact ⟨_, _, rfl, by decide, by simp [Framed, nextNeed, firstNeed, h12, hf0]⟩
    | keytypeBreak =>
      exact ⟨_, _, rfl, by decide, by decide, by simp [Framed, nextNeed, h7c]⟩
  | printScreen type =>
    cases type with
    | keytypeMake => exact ⟨_, _, rfl, by simp [Framed, nextNeed, firstNeed]⟩
    | keytypeBreak => exact ⟨_, _, rfl, by simp [Framed, nextNeed, firstNeed]⟩
  | pause => exact ⟨_, _, rfl, by simp [Framed, nextNeed, firstNeed]⟩

/-! ## The cells -/

/-- The sequence holds the bytes read so far. -/
structure Holds (seq : ScancodeSeq) (bytes : List UInt8) : Prop where
  cells : seq.scancodes.length = 8
  len : seq.len = bytes.length
  bytes_prefix : bytes <+: seq.scancodes

section Holds

variable {seq : ScancodeSeq} {bytes : List UInt8} {kbd : Keyboard}

theorem Holds.getElem? (h : Holds seq bytes) {i : ℕ} (hi : i < bytes.length) :
    seq.scancodes[i]? = bytes[i]? := by
  obtain ⟨rest, hrest⟩ := h.bytes_prefix
  rw [← hrest, List.getElem?_append_left hi]

theorem Holds.readCell (h : Holds seq bytes) {i : ℕ} {b : UInt8} (hb : bytes[i]? = some b) :
    readCell seq.scancodes i = .ok b := by
  obtain ⟨hi, -⟩ := List.getElem?_eq_some_iff.mp hb
  rw [readCell_eq_ok, h.getElem? hi, hb]

/-- Writing the cell behind the bytes appends to them. -/
theorem prefix_set {cells : List UInt8} (h : bytes <+: cells) (hlen : bytes.length < cells.length)
    (b : UInt8) : bytes ++ [b] <+: cells.set bytes.length b := by
  obtain ⟨rest, rfl⟩ := h
  cases rest with
  | nil => simp at hlen
  | cons c rest => exact ⟨rest, by simp⟩

/-- `keyboard_state_read_more` appends the byte and updates what is needed. -/
theorem keyboardStateReadMore_spec (h : Holds kbd.kbdSeq bytes) (hlen : bytes.length < 8)
    (hpos : 0 < kbd.kbdSeq.need) (hneed : kbd.kbdSeq.need ≤ 7) (b : UInt8) :
    ∃ seq, keyboardStateReadMore kbd b = .ok { kbd with
        kbdState := if nextNeed (bytes ++ [b]) kbd.kbdSeq.need = 0 then .translate else kbd.kbdState
        kbdSeq := seq } ∧
      Holds seq (bytes ++ [b]) ∧ seq.need = nextNeed (bytes ++ [b]) kbd.kbdSeq.need := by
  have hsub : Word32.sub kbd.kbdSeq.need 1 = kbd.kbdSeq.need - 1 :=
    Word32.sub_of_le hpos (by omega)
  set cells := kbd.kbdSeq.scancodes.set bytes.length b with hcells
  have hcellsLen : cells.length = 8 := by rw [hcells, List.length_set, h.cells]
  have hholds : Holds ⟨cells, bytes.length + 1, nextNeed (bytes ++ [b]) kbd.kbdSeq.need⟩
      (bytes ++ [b]) :=
    ⟨hcellsLen, by simp, prefix_set h.bytes_prefix (by rw [h.cells]; exact hlen) b⟩
  have hget : ∀ i, i < 8 → ∃ c, cells[i]? = some c ∧
      (i < bytes.length + 1 → (bytes ++ [b])[i]? = some c) := by
    intro i hi
    have hcell : cells[i]? = some cells[i] := List.getElem?_eq_getElem (by omega)
    refine ⟨_, hcell, fun hib => ?_⟩
    rw [← hholds.getElem? (by simpa using hib)]
    exact hcell
  obtain ⟨first, hfirst, hfirst'⟩ := hget 0 (by omega)
  obtain ⟨second, hsecond, hsecond'⟩ := hget 1 (by omega)
  obtain ⟨third, hthird, hthird'⟩ := hget 2 (by omega)
  -- the cells that the code tests hold bytes of the sequence
  have hnext : nextNeed (bytes ++ [b]) kbd.kbdSeq.need =
      if bytes.length + 1 = 2 ∧ first = 0xe0 then
        if second = 0x12 then 2 else if second = 0xf0 then 1 else kbd.kbdSeq.need - 1
      else if bytes.length + 1 = 3 ∧ third = 0x7c then 3
      else kbd.kbdSeq.need - 1 := by
    simp only [nextNeed, List.length_append, List.length_singleton, hfirst' (by omega),
      Option.some_inj]
    by_cases h2 : bytes.length + 1 = 2
    · simp only [hsecond' (by omega), h2, Option.some_inj]
      rfl
    · by_cases h3 : bytes.length + 1 = 3
      · simp only [hthird' (by omega), h3, Option.some_inj]
        rfl
      · simp only [h2, h3, false_and, if_false]
  refine ⟨_, ?_, hholds, rfl⟩
  rw [keyboardStateReadMore, h.len, writeCell, if_pos (by rw [h.cells]; exact hlen), hsub]
  simp only [Run.ok_bind, ← hcells, readCell_eq_ok.mpr hfirst, readCell_eq_ok.mpr hsecond,
    readCell_eq_ok.mpr hthird, ← hnext]
  rfl

/-- `keyboard_state_wait_scan` starts a new sequence. -/
theorem keyboardStateWaitScan_spec (hcells : kbd.kbdSeq.scancodes.length = 8) (b : UInt8) :
    ∃ seq, keyboardStateWaitScan kbd b = .ok { kbd with
        kbdState := if firstNeed b = 0 then .translate else .readMore
        kbdSeq := seq } ∧
      Holds seq [b] ∧ (firstNeed b ≠ 0 → seq.need = firstNeed b) := by
  have hholds : ∀ need, Holds ⟨kbd.kbdSeq.scancodes.set 0 b, 1, need⟩ [b] := fun need =>
    ⟨by rw [List.length_set, hcells], rfl,
      prefix_set List.nil_prefix (by rw [hcells]; decide) b⟩
  rw [keyboardStateWaitScan, writeCell, if_pos (by omega), Run.ok_bind]
  by_cases hprefix : b = 0xe0 ∨ b = 0xf0
  · have hneed : firstNeed b = 1 := by rw [firstNeed, if_pos hprefix]
    rw [if_pos hprefix, hneed]
    exact ⟨_, rfl, hholds 1, fun _ => rfl⟩
  · by_cases hpause : b = 0xe1
    · have hneed : firstNeed b = 7 := by rw [firstNeed, if_neg hprefix, if_pos hpause]
      rw [if_neg hprefix, if_pos hpause, hneed]
      exact ⟨_, rfl, hholds 7, fun _ => rfl⟩
    · have hneed : firstNeed b = 0 := by rw [firstNeed, if_neg hprefix, if_neg hpause]
      rw [if_neg hprefix, if_neg hpause, hneed]
      exact ⟨_, rfl, hholds _, fun h => absurd rfl h⟩

/-! ## Translation -/

theorem Holds.validate (h : Holds seq bytes) :
    keyboardValidateSequence bytes seq.scancodes seq.len = true := by
  rw [keyboardValidateSequence, List.all_eq_true]
  intro i hi
  rw [h.len, List.mem_range] at hi
  rw [h.getElem? hi, beq_self_eq_true]

theorem Holds.translateLong (h : Holds seq bytes) (warning : String) (res : KeycodeRes) :
    translateLong seq bytes warning res = (res, none) := by
  rw [Ahos.translateLong, h.validate, if_pos rfl]

theorem TwoByteCode.translate2bytes (code : TwoByteCode) (type : KeycodeType) :
    translate2bytes code.1 type = (⟨scan2bytesToKey code.1, type⟩, none) := by
  rw [Ahos.translate2bytes, if_neg code.2]

theorem OneByteCode.readCell (code : OneByteCode) :
    readCell scanToKey code.1.toNat = .ok (scanToKey.getD code.1.toNat .keyUnk) := by
  have hlt : code.1.toNat < scanToKey.length := by
    by_contra hge
    exact code.2 (List.getD_eq_default _ _ (Nat.le_of_not_lt hge))
  rw [readCell_eq_ok, List.getD_eq_getElem?_getD, List.getElem?_eq_getElem hlt, Option.getD_some]

section Lookup

variable {m : Type → Type} [Monad m] [LawfulMonad m] [MonadLiftT Outcome m]
  [LawfulMonadLiftT Outcome m] (lookup : ℕ → m Keycode) {first second scan : UInt8}

omit [LawfulMonad m] in
/-- In every monad, a cell that was read is read. -/
theorem Holds.liftM_readCell (h : Holds seq bytes) {i : ℕ} {b : UInt8} (hb : bytes[i]? = some b) :
    (liftM (Ahos.readCell seq.scancodes i) : m UInt8) = pure b := by
  rw [h.readCell hb]
  exact monadLift_pure b

theorem Holds.translate_one (h : Holds seq [scan]) :
    translateSeqWith lookup seq =
      lookup scan.toNat >>= fun kc => pure (⟨kc, .keytypeMake⟩, none) := by
  have hlen : seq.len = 1 := h.len
  rw [translateSeqWith, if_pos hlen, h.liftM_readCell (i := 0) rfl, pure_bind]

theorem Holds.translate_two (h : Holds seq [first, scan]) :
    translateSeqWith lookup seq =
      if first = 0xe0 then pure (translate2bytes scan .keytypeMake)
      else lookup scan.toNat >>= fun kc => pure (⟨kc, .keytypeBreak⟩, none) := by
  have hlen : seq.len = 2 := h.len
  rw [translateSeqWith, if_neg (by omega), if_pos hlen, h.liftM_readCell (i := 0) rfl, pure_bind,
    h.liftM_readCell (i := 1) rfl, pure_bind]

theorem Holds.translate_three (h : Holds seq [first, second, scan]) :
    translateSeqWith lookup seq = pure (translate2bytes scan .keytypeBreak) := by
  have hlen : seq.len = 3 := h.len
  rw [translateSeqWith, if_neg (by omega), if_neg (by omega), if_pos hlen,
    h.liftM_readCell (i := 2) rfl, pure_bind]

end Lookup

/-- **A complete sequence is translated to its event**, without a message. -/
theorem translateSeq_encode {e : KeyEvent} (h : Holds seq e.encode) :
    translateSeq seq = .ok (e.result, none) := by
  cases e with
  | oneByte code type =>
    cases type with
    | keytypeMake =>
      rw [translateSeq, h.translate_one, code.readCell]
      rfl
    | keytypeBreak =>
      rw [translateSeq, h.translate_two, if_neg (by decide), code.readCell]
      rfl
  | twoBytes code type =>
    cases type with
    | keytypeMake =>
      rw [translateSeq, h.translate_two, if_pos rfl, code.translate2bytes]
      rfl
    | keytypeBreak =>
      rw [translateSeq, h.translate_three, code.translate2bytes]
      rfl
  | printScreen type =>
    cases type with
    | keytypeMake =>
      have hlen : seq.len = 4 := h.len
      simp only [KeyEvent.encode] at h
      simp [translateSeq, translateSeqWith, hlen, h.translateLong, KeyEvent.result]
    | keytypeBreak =>
      have hlen : seq.len = 6 := h.len
      simp only [KeyEvent.encode] at h
      simp [translateSeq, translateSeqWith, hlen, h.translateLong, KeyEvent.result]
  | pause =>
    have hlen : seq.len = 8 := h.len
    simp only [KeyEvent.encode] at h
    simp [translateSeq, translateSeqWith, hlen, h.translateLong, KeyEvent.result]

end Holds

end Ahos
