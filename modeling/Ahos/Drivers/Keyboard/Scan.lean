import Ahos.Drivers.Keyboard.Runs

/-!
# Any bytes at all

The state machine of the keyboard driver on a stream of arbitrary bytes, where nothing says that
the bytes are sequences of scan code set 2. `readLen bytes` is the number of bytes that the machine
reads for a sequence that starts with `bytes`. A run records the sequences in the order in which
they were translated. A lookup outside `scan_to_key` yields what lies behind the table, and the run
goes on.
-/

namespace Ahos

/-! ## Lookups -/

/-- A read of `scan_to_key` that records the index. Outside of the table, it yields what is
`behind`. -/
def lookupBehind (behind : ℕ → Keycode) (i : ℕ) : StateT (List ℕ) Outcome Keycode := do
  modify (· ++ [i])
  return scanToKey[i]?.getD (behind i)

/-- `translateSeq`, with the indices at which it reads the table. -/
def translateBehind (behind : ℕ → Keycode) (seq : ScancodeSeq) :
    Outcome ((KeycodeRes × Option String) × List ℕ) :=
  (translateSeqWith (lookupBehind behind) seq).run []

/-- `keyboard_task`, with the indices at which it reads `scan_to_key`: reads outside of the table
find the values `behind`. -/
def keyboardTaskBehind (behind : ℕ → Keycode) (kbd : Keyboard) (mid : List UInt8) :
    Outcome (TaskResult × List ℕ) :=
  match kbd.kbdState with
  | .translate => do
    let (res, lookups) ← translateBehind behind kbd.kbdSeq
    let (lost, driver) ← ps2driverRecvAll kbd.keyboardDriver mid
    return (⟨lost, some res, { kbd with kbdState := .waitScan, keyboardDriver := driver }⟩, lookups)
  | _ => do
    let r ← keyboardTask kbd mid
    return (r, [])

/-- The translation with recorded indices yields what the translation yields exactly when all of the
indices are inside the table. -/
def Recorded (x : Outcome (KeycodeRes × Option String))
    (y : StateT (List ℕ) Outcome (KeycodeRes × Option String)) : Prop :=
  ∀ res, x = .ok res ↔ ∃ lookups, y.run [] = .ok (res, lookups) ∧
    ∀ i ∈ lookups, i < scanToKey.length

theorem recorded_pure (res : KeycodeRes × Option String) : Recorded (pure res) (pure res) := by
  intro res'
  simp

theorem recorded_lookup (behind : ℕ → Keycode) (i : ℕ) (type : KeycodeType) :
    Recorded (readCell scanToKey i >>= fun kc => pure (⟨kc, type⟩, none))
      (lookupBehind behind i >>= fun kc => pure (⟨kc, type⟩, none)) := by
  intro res
  have hrun : (lookupBehind behind i >>= fun kc => pure (⟨kc, type⟩, none)).run [] =
      (.ok ((⟨scanToKey[i]?.getD (behind i), type⟩, none), [i]) :
        Outcome ((KeycodeRes × Option String) × List ℕ)) := rfl
  rw [hrun]
  cases hcell : scanToKey[i]? with
  | none =>
    have hge := List.getElem?_eq_none_iff.mp hcell
    constructor
    · intro h
      rw [readCell, hcell] at h
      cases h
    · rintro ⟨lookups, h, hall⟩
      obtain ⟨-, rfl⟩ := Prod.mk.inj (Except.ok.inj h)
      exact absurd (hall i (List.mem_singleton_self i)) (Nat.not_lt.mpr hge)
  | some kc =>
    obtain ⟨hlt, -⟩ := List.getElem?_eq_some_iff.mp hcell
    rw [readCell_eq_ok.mpr hcell, Run.ok_bind, Option.getD_some]
    constructor
    · intro h
      exact ⟨[i], by rw [Except.ok.inj h], by simpa using hlt⟩
    · rintro ⟨lookups, h, -⟩
      exact congrArg Except.ok (Prod.mk.inj (Except.ok.inj h)).1

/-- A cell of the sequence that is not there ends both. -/
theorem recorded_readCell {cells : List UInt8} {i : ℕ}
    {f : UInt8 → Outcome (KeycodeRes × Option String)}
    {g : UInt8 → StateT (List ℕ) Outcome (KeycodeRes × Option String)}
    (h : ∀ b, Recorded (f b) (g b)) :
    Recorded (liftM (readCell cells i) >>= f) (liftM (readCell cells i) >>= g) := by
  intro res
  cases hcell : readCell cells i with
  | ok b => exact h b res
  | error halt =>
    constructor
    · intro hf
      cases hf
    · rintro ⟨lookups, hg, -⟩
      cases hg

/-- **What is recorded is what the translation reads**: it yields a result exactly when the
translation with recorded indices yields it and none of them is outside of the table. -/
theorem recorded_translate (behind : ℕ → Keycode) (seq : ScancodeSeq) :
    Recorded (translateSeq seq) (translateSeqWith (lookupBehind behind) seq) := by
  unfold translateSeq translateSeqWith
  split_ifs
  · exact recorded_readCell fun scan => recorded_lookup behind _ _
  · refine recorded_readCell fun first => recorded_readCell fun scan => ?_
    split_ifs
    · exact recorded_pure _
    · exact recorded_lookup behind _ _
  · exact recorded_readCell fun scan => recorded_pure _
  · exact recorded_pure _
  · exact recorded_pure _
  · exact recorded_pure _
  · exact recorded_pure _

/-- `keyboard_task` returns exactly when no index is outside of the table. -/
theorem keyboardTask_eq_ok_iff (behind : ℕ → Keycode) {kbd : Keyboard} {mid : List UInt8}
    {r : TaskResult} :
    keyboardTask kbd mid = .ok r ↔ ∃ lookups,
      keyboardTaskBehind behind kbd mid = .ok (r, lookups) ∧
        ∀ i ∈ lookups, i < scanToKey.length := by
  cases hstate : kbd.kbdState with
  | translate =>
    simp only [keyboardTask, keyboardTaskBehind, hstate, keyboardStateTranslate, Run.bind_eq_ok]
    constructor
    · rintro ⟨_, ⟨res, hres, hkbd⟩, ⟨lost, driver⟩, hrecv, hr⟩
      obtain rfl := Except.ok.inj hkbd
      obtain rfl := Except.ok.inj hr
      obtain ⟨lookups, hlookups, hall⟩ := (recorded_translate behind _ res).mp hres
      exact ⟨lookups, ⟨(res, lookups), hlookups, (lost, driver), hrecv, rfl⟩, hall⟩
    · rintro ⟨_, ⟨⟨res, lookups⟩, hlookups, ⟨lost, driver⟩, hrecv, hr⟩, hall⟩
      obtain ⟨rfl, rfl⟩ := Prod.mk.inj (Except.ok.inj hr)
      have hres := (recorded_translate behind _ res).mpr ⟨lookups, hlookups, hall⟩
      exact ⟨_, ⟨res, hres, rfl⟩, (lost, driver), hrecv, rfl⟩
  | reset => simp [keyboardTaskBehind, hstate, Run.bind_eq_ok]
  | waitScan => simp [keyboardTaskBehind, hstate, Run.bind_eq_ok]
  | readMore => simp [keyboardTaskBehind, hstate, Run.bind_eq_ok]

/-! ## Lengths -/

/-- The number of bytes that the state machine reads for a sequence that starts with `bytes`. -/
def readLen (bytes : List UInt8) : ℕ :=
  if bytes[0]? = some 0xe0 then
    if bytes[1]? = some 0x12 then
      if bytes[2]? = some 0x7c then 6 else 4
    else if bytes[1]? = some 0xf0 then
      if bytes[2]? = some 0x7c then 6 else 3
    else 2
  else if bytes[0]? = some 0xf0 then 2
  else if bytes[0]? = some 0xe1 then
    if bytes[2]? = some 0x7c then 6 else 8
  else 1

/-- As many bytes were read as the machine reads for a sequence. -/
def Whole (bytes : List UInt8) : Prop := bytes.length = readLen bytes

theorem readLen_mem (bytes : List UInt8) : readLen bytes ∈ [1, 2, 3, 4, 6, 8] := by
  unfold readLen
  split_ifs <;> decide

theorem readLen_le (bytes : List UInt8) : readLen bytes ≤ 8 := by
  have hall : ∀ len ∈ [1, 2, 3, 4, 6, 8], len ≤ 8 := by decide
  exact hall _ (readLen_mem bytes)

theorem readLen_pos (bytes : List UInt8) : 0 < readLen bytes := by
  have hall : ∀ len ∈ [1, 2, 3, 4, 6, 8], 0 < len := by decide
  exact hall _ (readLen_mem bytes)

/-- Only the first three bytes count. -/
theorem readLen_congr {bytes bytes' : List UInt8} (h : ∀ i < 3, bytes[i]? = bytes'[i]?) :
    readLen bytes = readLen bytes' := by
  simp only [readLen, h 0 (by omega), h 1 (by omega), h 2 (by omega)]

theorem readLen_append_of_three_le {bytes : List UInt8} (h : 3 ≤ bytes.length)
    (more : List UInt8) : readLen (bytes ++ more) = readLen bytes := by
  apply readLen_congr
  intro i hi
  rw [List.getElem?_append_left (by omega)]

/-- The bytes that are needed after the first one. -/
theorem readLen_first (b : UInt8) : readLen [b] = 1 + firstNeed b := by
  simp only [readLen, firstNeed, List.getElem?_cons_zero, Option.some_inj]
  by_cases he0 : b = 0xe0
  · simp [he0]
  · by_cases hf0 : b = 0xf0
    · simp [hf0]
    · by_cases he1 : b = 0xe1
      · simp [he1]
      · simp [he0, hf0, he1]

/-- **The count that the code keeps is the number of bytes that are missing**: reading a byte that
is needed changes both in the same way. -/
theorem readLen_next {bytes : List UInt8} {need : ℕ} (hne : bytes ≠ []) (hpos : 0 < need)
    (h : readLen bytes = bytes.length + need) (b : UInt8) :
    readLen (bytes ++ [b]) = bytes.length + 1 + nextNeed (bytes ++ [b]) need := by
  obtain _ | ⟨first, _ | ⟨second, _ | ⟨third, bytes⟩⟩⟩ := bytes
  · exact absurd rfl hne
  · simp only [readLen, nextNeed, List.singleton_append, List.getElem?_cons_zero,
      List.getElem?_cons_succ, List.getElem?_nil, List.length_cons, List.length_nil,
      Option.some_inj, reduceCtorEq, if_false, true_and, Nat.reduceAdd, Nat.reduceEqDiff,
      false_and] at h ⊢
    split_ifs at h ⊢ <;> omega
  · simp only [readLen, nextNeed, List.cons_append, List.nil_append, List.getElem?_cons_zero,
      List.getElem?_cons_succ, List.getElem?_nil, List.length_cons, List.length_nil,
      Option.some_inj, reduceCtorEq, if_false, true_and, Nat.reduceAdd, Nat.reduceEqDiff,
      false_and] at h ⊢
    split_ifs at h ⊢ <;> omega
  · rw [readLen_append_of_three_le (by simp), h, nextNeed, if_neg, if_neg]
    · omega
    · simp
    · simp

/-- What follows changes the number of bytes only while bytes are missing, and as long as that is so
some are missing. -/
theorem readLen_append (bytes more : List UInt8) :
    readLen (bytes ++ more) = readLen bytes ∨
      bytes.length < readLen bytes ∧ bytes.length < readLen (bytes ++ more) := by
  obtain _ | ⟨first, _ | ⟨second, _ | ⟨third, bytes⟩⟩⟩ := bytes
  · exact .inr ⟨readLen_pos _, readLen_pos _⟩
  · simp only [readLen, List.singleton_append, List.getElem?_cons_zero, List.getElem?_cons_succ,
      List.getElem?_nil, List.length_singleton, reduceCtorEq, if_false]
    split_ifs <;> decide
  · simp only [readLen, List.cons_append, List.nil_append, List.getElem?_cons_zero,
      List.getElem?_cons_succ, List.getElem?_nil, List.length_cons, List.length_nil, reduceCtorEq,
      if_false]
    split_ifs <;> decide
  · exact .inl (readLen_append_of_three_le (by simp) more)

/-- The machine does not look behind a whole sequence. -/
theorem Whole.readLen_append {bytes : List UInt8} (h : Whole bytes) (more : List UInt8) :
    readLen (bytes ++ more) = readLen bytes :=
  (Ahos.readLen_append bytes more).resolve_right fun hmissing => absurd h hmissing.1.ne

/-- While bytes are missing, some are missing whatever follows. -/
theorem length_lt_readLen_append {bytes : List UInt8} (h : bytes.length < readLen bytes)
    (more : List UInt8) : bytes.length < readLen (bytes ++ more) := by
  obtain heq | ⟨-, hlt⟩ := readLen_append bytes more
  · rw [heq]
    exact h
  · exact hlt

/-! ## The grammar -/

/-- The number of bytes of the sequence of scan code set 2 that starts a stream. -/
def grammarLen (stream : List UInt8) : ℕ :=
  if stream[0]? = some 0xe0 then
    if stream[1]? = some 0x12 then 4
    else if stream[1]? = some 0xf0 then
      if stream[2]? = some 0x7c then 6 else 3
    else 2
  else if stream[0]? = some 0xe1 then 8
  else if stream[0]? = some 0xf0 then 2
  else 1

/-- The third byte is the one that marks the break code of print screen, but what precedes it is
not the start of that sequence. -/
def Reframed (stream : List UInt8) : Prop :=
  stream[2]? = some 0x7c ∧
    (stream[0]? = some 0xe1 ∨ stream[0]? = some 0xe0 ∧ stream[1]? = some 0x12)

/-- **The machine follows the grammar exactly on the streams that are not reframed.** -/
theorem readLen_eq_grammarLen_iff (stream : List UInt8) :
    readLen stream = grammarLen stream ↔ ¬ Reframed stream := by
  unfold readLen grammarLen Reframed
  split_ifs <;> simp_all

/-! ## Translation -/

section Translation

variable {seq : ScancodeSeq} {bytes : List UInt8}

/-- The index of `scan_to_key` that a sequence leads to, if any. -/
def lookupIndex : List UInt8 → Option ℕ
  | [scan] => some scan.toNat
  | [first, scan] => if first = 0xe0 then none else some scan.toNat
  | _ => none

theorem length_scanToKey : scanToKey.length = 136 := by decide +kernel

/-- A single scan code, or a scan code behind `0xf0`, that has no entry in `scan_to_key`. -/
def NoEntry (bytes : List UInt8) : Prop :=
  ∃ scan : UInt8, 0x88 ≤ scan ∧ (bytes = [scan] ∨ bytes = [0xf0, scan])

/-- The first byte of a whole sequence of two bytes is a prefix byte. -/
theorem Whole.prefix_byte {first scan : UInt8} (h : Whole [first, scan]) (hne : first ≠ 0xe0) :
    first = 0xf0 := by
  by_contra hf0
  simp only [Whole, readLen, List.getElem?_cons_zero, Option.some_inj, List.length_cons,
    List.length_nil, if_neg hne, if_neg hf0] at h
  split_ifs at h <;> omega

/-- A sequence is looked up outside of the table exactly when it has no entry. -/
theorem Whole.lookupIndex_iff (h : Whole bytes) :
    (∃ i ∈ lookupIndex bytes, scanToKey.length ≤ i) ↔ NoEntry bytes := by
  have hlen : ∀ scan : UInt8, scanToKey.length ≤ scan.toNat ↔ 0x88 ≤ scan := by
    intro scan
    rw [length_scanToKey, UInt8.le_iff_toNat_le]
    rfl
  cases bytes with
  | nil => simp [lookupIndex, NoEntry]
  | cons first bytes =>
    cases bytes with
    | nil => simp [lookupIndex, NoEntry, hlen]
    | cons second bytes =>
      cases bytes with
      | nil =>
        by_cases he0 : first = 0xe0
        · simp [lookupIndex, NoEntry, he0]
        · simp [lookupIndex, NoEntry, hlen, h.prefix_byte he0]
      | cons third bytes => simp [lookupIndex, NoEntry]

/-- A key with a two-byte code is never reported as a sequence of an unknown length. -/
theorem translate2bytes_message (scan : UInt8) (type : KeycodeType) :
    (translate2bytes scan type).2 ≠ some "unknown sequence len" := by
  unfold translate2bytes
  split_ifs <;> simp

theorem translateLong_message {expect : List UInt8} {warning : String} {res : KeycodeRes}
    (h : warning ≠ "unknown sequence len") :
    (translateLong seq expect warning res).2 ≠ some "unknown sequence len" := by
  unfold translateLong
  split_ifs
  · simp
  · simpa using h

/-- A sequence of a length that the code knows is translated, and not reported as one of an unknown
length. The table is read where the sequence leads to, and nowhere else. -/
theorem Holds.translateBehind (h : Holds seq bytes) (hwhole : Whole bytes)
    (behind : ℕ → Keycode) :
    ∃ res, Ahos.translateBehind behind seq = .ok (res, (lookupIndex bytes).toList) ∧
      res.2 ≠ some "unknown sequence len" := by
  have hlen := readLen_mem bytes
  rw [← hwhole] at hlen
  obtain _ | ⟨first, _ | ⟨second, _ | ⟨third, _ | ⟨fourth, bytes⟩⟩⟩⟩ := bytes
  · simp at hlen
  · rw [Ahos.translateBehind, h.translate_one]
    exact ⟨_, rfl, by simp⟩
  · rw [Ahos.translateBehind, h.translate_two]
    by_cases he0 : first = 0xe0
    · rw [if_pos he0, lookupIndex, if_pos he0]
      exact ⟨_, rfl, translate2bytes_message _ _⟩
    · rw [if_neg he0, lookupIndex, if_neg he0]
      exact ⟨_, rfl, by simp⟩
  · rw [Ahos.translateBehind, h.translate_three]
    exact ⟨_, rfl, translate2bytes_message _ _⟩
  · have hlong : seq.len = 4 ∨ seq.len = 6 ∨ seq.len = 8 := by
      rw [h.len]
      simp only [List.mem_cons, List.not_mem_nil, or_false, List.length_cons] at hlen ⊢
      omega
    obtain hlen | hlen | hlen := hlong
    · exact ⟨_, by simp only [Ahos.translateBehind, translateSeqWith, hlen]; rfl,
        translateLong_message (by decide)⟩
    · exact ⟨_, by simp only [Ahos.translateBehind, translateSeqWith, hlen]; rfl,
        translateLong_message (by decide)⟩
    · exact ⟨_, by simp only [Ahos.translateBehind, translateSeqWith, hlen]; rfl,
        translateLong_message (by decide)⟩

end Translation

/-! ## Runs -/

/-- The driver, the bytes read for the sequence in progress, and, in the order of the translations,
the bytes of the sequences, the indices that were looked up and the messages. -/
structure ScanRun where
  kbd : Keyboard
  pending : List UInt8
  sequences : List (List UInt8)
  lookups : List ℕ
  messages : List String
deriving DecidableEq, Repr

namespace ScanRun

/-- One step. -/
def step (behind : ℕ → Keycode) (s : ScanRun) : KeyboardOp → Outcome ScanRun
  | .recv data => do
    let (_, kbd) ← keyboardRecv s.kbd data
    return { s with kbd := kbd }
  | .task mid => do
    let (r, lookups) ← keyboardTaskBehind behind s.kbd mid
    match s.kbd.kbdState with
    | .reset => return { s with kbd := r.kbd, pending := [] }
    | .waitScan | .readMore =>
      let (scancode, _) ← ps2driverRead s.kbd.keyboardDriver mid
      return { s with kbd := r.kbd, pending := s.pending ++ scancode.toList }
    | .translate =>
      return {
        kbd := r.kbd
        pending := []
        sequences := s.sequences ++ [s.pending]
        lookups := s.lookups ++ lookups
        messages := s.messages ++ (r.res.bind Prod.snd).toList }

/-- The start: the static data at boot, and nothing was read. -/
def start : ScanRun := ⟨.init, [], [], [], []⟩

end ScanRun

/-- The state of the driver says how much of the sequence in progress was read. -/
inductive Scanned (kbd : Keyboard) : List UInt8 → Prop where
  | nothing (state : kbd.kbdState = .reset ∨ kbd.kbdState = .waitScan) : Scanned kbd []
  | partway {bytes : List UInt8} (state : kbd.kbdState = .readMore)
      (holds : Holds kbd.kbdSeq bytes) (ne_nil : bytes ≠ []) (need_pos : 0 < kbd.kbdSeq.need)
      (readLen_eq : readLen bytes = bytes.length + kbd.kbdSeq.need) : Scanned kbd bytes
  | whole {bytes : List UInt8} (state : kbd.kbdState = .translate)
      (holds : Holds kbd.kbdSeq bytes) (whole : Whole bytes) : Scanned kbd bytes

theorem Scanned.congr {kbd kbd' : Keyboard} {bytes : List UInt8} (h : Scanned kbd bytes)
    (hstate : kbd'.kbdState = kbd.kbdState) (hseq : kbd'.kbdSeq = kbd.kbdSeq) :
    Scanned kbd' bytes := by
  cases h with
  | nothing state => exact .nothing (hstate ▸ state)
  | partway state holds hne pos hlen =>
    exact .partway (hstate ▸ state) (hseq ▸ holds) hne (hseq ▸ pos) (hseq ▸ hlen)
  | whole state holds whole => exact .whole (hstate ▸ state) (hseq ▸ holds) whole

theorem Scanned.of_translate {kbd : Keyboard} {bytes : List UInt8} (h : Scanned kbd bytes)
    (hstate : kbd.kbdState = .translate) : Holds kbd.kbdSeq bytes ∧ Whole bytes := by
  cases h with
  | nothing state => simp [hstate] at state
  | partway state => simp [hstate] at state
  | whole state holds whole => exact ⟨holds, whole⟩

theorem Scanned.of_readMore {kbd : Keyboard} {bytes : List UInt8} (h : Scanned kbd bytes)
    (hstate : kbd.kbdState = .readMore) :
    Holds kbd.kbdSeq bytes ∧ bytes ≠ [] ∧ 0 < kbd.kbdSeq.need ∧
      readLen bytes = bytes.length + kbd.kbdSeq.need := by
  cases h with
  | nothing state => simp [hstate] at state
  | partway state holds hne pos hlen => exact ⟨holds, hne, pos, hlen⟩
  | whole state => simp [hstate] at state

theorem Scanned.of_reset {kbd : Keyboard} {bytes : List UInt8} (h : Scanned kbd bytes)
    (hstate : kbd.kbdState = .reset) : bytes = [] := by
  cases h with
  | nothing state => rfl
  | partway state => simp [hstate] at state
  | whole state => simp [hstate] at state

theorem Scanned.of_waitScan {kbd : Keyboard} {bytes : List UInt8} (h : Scanned kbd bytes)
    (hstate : kbd.kbdState = .waitScan) : bytes = [] := by
  cases h with
  | nothing state => rfl
  | partway state => simp [hstate] at state
  | whole state => simp [hstate] at state

/-- What holds between the steps. -/
structure Scanning (s : ScanRun) : Prop where
  inv : QueueInv s.kbd.keyboardDriver
  cells : s.kbd.kbdSeq.scancodes.length = 8
  whole : ∀ bytes ∈ s.sequences, Whole bytes
  lookups : s.lookups = s.sequences.filterMap lookupIndex
  messages : "unknown sequence len" ∉ s.messages
  scanned : Scanned s.kbd s.pending

theorem scanning_start : Scanning .start :=
  ⟨queueInv_init.1, rfl, by simp [ScanRun.start], rfl, by simp [ScanRun.start],
    .nothing (.inl rfl)⟩

section Step

variable {s : ScanRun} (behind : ℕ → Keycode)

theorem Scanning.step_recv (h : Scanning s) (data : UInt8) :
    ∃ s', s.step behind (.recv data) = .ok s' ∧ Scanning s' := by
  rcases ps2driverRecv_spec h.inv data with ⟨-, hrecv⟩ | ⟨driver, -, hrecv, hinv, -⟩
  · refine ⟨s, ?_, h⟩
    rw [ScanRun.step, keyboardRecv, hrecv]
    rfl
  · refine ⟨{ s with kbd := { s.kbd with keyboardDriver := driver } }, ?_, hinv, h.cells, h.whole,
      h.lookups, h.messages, h.scanned.congr rfl rfl⟩
    rw [ScanRun.step, keyboardRecv, hrecv]
    rfl

/-- The byte that starts a sequence. -/
theorem scanned_first (kbd : Keyboard) (hcells : kbd.kbdSeq.scancodes.length = 8) (b : UInt8) :
    ∃ kbd', keyboardStateWaitScan kbd b = .ok kbd' ∧
      kbd'.keyboardDriver = kbd.keyboardDriver ∧ kbd'.kbdSeq.scancodes.length = 8 ∧
      Scanned kbd' [b] := by
  obtain ⟨seq, hwait, hholds, hneed⟩ := keyboardStateWaitScan_spec hcells b
  refine ⟨_, hwait, rfl, hholds.cells, ?_⟩
  by_cases hzero : firstNeed b = 0
  · apply Scanned.whole (if_pos hzero) hholds
    rw [Whole, readLen_first, hzero, List.length_singleton]
  · have hpos : 0 < seq.need := by
      rw [hneed hzero]
      omega
    apply Scanned.partway (if_neg hzero) hholds (List.cons_ne_nil _ _) hpos
    rw [readLen_first, ← hneed hzero, List.length_singleton]

/-- A further byte of a sequence. -/
theorem scanned_next (kbd : Keyboard) {bytes : List UInt8} (h : Scanned kbd bytes)
    (hstate : kbd.kbdState = .readMore) (b : UInt8) :
    ∃ kbd', keyboardStateReadMore kbd b = .ok kbd' ∧
      kbd'.keyboardDriver = kbd.keyboardDriver ∧ kbd'.kbdSeq.scancodes.length = 8 ∧
      Scanned kbd' (bytes ++ [b]) := by
  cases h with
  | nothing state => simp [hstate] at state
  | whole state => simp [hstate] at state
  | partway state holds hne pos hlen =>
    have hle := readLen_le bytes
    have hlenPos := List.length_pos_of_ne_nil hne
    obtain ⟨seq, hmore, hholds, hneed⟩ :=
      keyboardStateReadMore_spec holds (by omega) pos (by omega) b
    have hnext := readLen_next hne pos hlen b
    refine ⟨_, hmore, rfl, hholds.cells, ?_⟩
    by_cases hzero : nextNeed (bytes ++ [b]) kbd.kbdSeq.need = 0
    · apply Scanned.whole (if_pos hzero) hholds
      rw [Whole, hnext, hzero, List.length_append, List.length_singleton]
    · have hpos : 0 < seq.need := by
        rw [hneed]
        omega
      apply Scanned.partway ((if_neg hzero).trans hstate) hholds (by simp) hpos
      rw [hnext, hneed, List.length_append, List.length_singleton]

/-- A call in one of the two states that read a byte. `next` is what the state does with it. -/
theorem Scanning.step_read {next : Keyboard → UInt8 → Outcome Keyboard} (h : Scanning s)
    (mid : List UInt8) (hstate : s.kbd.kbdState = .waitScan ∨ s.kbd.kbdState = .readMore)
    (htask : keyboardTask s.kbd mid = readScancode s.kbd mid next)
    (hnext : ∀ b driver, ∃ kbd, next { s.kbd with keyboardDriver := driver } b = .ok kbd ∧
      kbd.keyboardDriver = driver ∧ kbd.kbdSeq.scancodes.length = 8 ∧
      Scanned kbd (s.pending ++ [b])) :
    ∃ kbd, s.step behind (.task mid) = .ok { s with
        kbd := kbd
        pending := s.pending ++ s.kbd.keyboardDriver.queue.head?.toList } ∧
      Scanning { s with
        kbd := kbd
        pending := s.pending ++ s.kbd.keyboardDriver.queue.head?.toList } := by
  obtain ⟨lost, driver, hread, hinv, -⟩ := ps2driverRead_spec h.inv mid
  have hbehind : keyboardTaskBehind behind s.kbd mid =
      readScancode s.kbd mid next >>= fun r => .ok (r, []) := by
    rw [← htask, keyboardTaskBehind]
    obtain hstate | hstate := hstate <;> rw [hstate] <;> rfl
  have hstep : ∀ r, readScancode s.kbd mid next = .ok r →
      s.step behind (.task mid) = .ok { s with
        kbd := r.kbd
        pending := s.pending ++ s.kbd.keyboardDriver.queue.head?.toList } := by
    intro r hr
    rw [ScanRun.step, hbehind, hr, Run.ok_bind, Run.ok_bind]
    obtain hstate | hstate := hstate <;> simp only [hstate, hread] <;> rfl
  cases hqueue : s.kbd.keyboardDriver.queue.head? with
  | none =>
    rw [hqueue] at hread hstep
    rw [Option.toList_none, List.append_nil] at hstep ⊢
    refine ⟨{ s.kbd with keyboardDriver := driver }, hstep ⟨lost, none, _⟩ ?_, hinv, h.cells,
      h.whole, h.lookups, h.messages, h.scanned.congr rfl rfl⟩
    rw [readScancode, hread]
    rfl
  | some b =>
    obtain ⟨kbd, hkbd, hdriver, hcells, hscanned⟩ := hnext b driver
    rw [hqueue] at hread hstep
    rw [Option.toList_some] at hstep ⊢
    refine ⟨kbd, hstep ⟨lost, none, kbd⟩ ?_, hdriver ▸ hinv, hcells, h.whole, h.lookups,
      h.messages, hscanned⟩
    rw [readScancode, hread, Run.ok_bind]
    simp only [hkbd, Run.ok_bind]
    rfl

/-- A call that translates a sequence. -/
theorem Scanning.step_translate (h : Scanning s) (mid : List UInt8)
    (hstate : s.kbd.kbdState = .translate) :
    ∃ s', s.step behind (.task mid) = .ok s' ∧ Scanning s' ∧ s'.pending = [] ∧
      s'.sequences = s.sequences ++ [s.pending] := by
  obtain ⟨holds, whole⟩ := h.scanned.of_translate hstate
  obtain ⟨lost, driver, hmid, hinv, -⟩ := ps2driverRecvAll_spec h.inv mid
  obtain ⟨res, hres, hmessage⟩ := holds.translateBehind whole behind
  refine ⟨⟨{ s.kbd with kbdState := .waitScan, keyboardDriver := driver }, [],
    s.sequences ++ [s.pending], s.lookups ++ (lookupIndex s.pending).toList,
    s.messages ++ res.2.toList⟩, ?_, ⟨hinv, h.cells, ?_, ?_, ?_, .nothing (.inr rfl)⟩, rfl, rfl⟩
  · simp only [ScanRun.step, keyboardTaskBehind, hstate, hres, hmid, Run.ok_bind]
    rfl
  · intro bytes hbytes
    rcases List.mem_append.mp hbytes with hbytes | hbytes
    · exact h.whole bytes hbytes
    · rw [List.mem_singleton.mp hbytes]
      exact whole
  · rw [h.lookups, List.filterMap_append]
    rfl
  · intro hmem
    rcases List.mem_append.mp hmem with hmem | hmem
    · exact h.messages hmem
    · rw [Option.mem_toList] at hmem
      exact hmessage hmem

/-- A call resets the driver. -/
theorem Scanning.step_reset (h : Scanning s) (mid : List UInt8)
    (hstate : s.kbd.kbdState = .reset) :
    ∃ s', s.step behind (.task mid) = .ok s' ∧ Scanning s' := by
  obtain ⟨hflush, -⟩ := ps2driverFlush_spec h.inv
  obtain ⟨lost, driver, hmid, hinv, -⟩ := ps2driverRecvAll_spec hflush mid
  refine ⟨{ s with
    kbd := { keyboardStateReset s.kbd with keyboardDriver := driver }
    pending := [] }, ?_, hinv, h.cells, h.whole, h.lookups, h.messages, .nothing (.inr rfl)⟩
  have htask : keyboardTaskBehind behind s.kbd mid =
      .ok (⟨lost, none, { keyboardStateReset s.kbd with keyboardDriver := driver }⟩, []) := by
    simp only [keyboardTaskBehind, keyboardTask, hstate, keyboardStateReset, hmid, Run.ok_bind]
    rfl
  rw [ScanRun.step, htask, Run.ok_bind]
  simp only [hstate]
  rfl

/-- A call that reads a byte, if there is one. -/
theorem Scanning.step_reading (h : Scanning s) (mid : List UInt8)
    (hstate : s.kbd.kbdState = .waitScan ∨ s.kbd.kbdState = .readMore) :
    ∃ s', s.step behind (.task mid) = .ok s' ∧ Scanning s' ∧
      s'.pending = s.pending ++ s.kbd.keyboardDriver.queue.head?.toList ∧
      s'.sequences = s.sequences := by
  obtain hwait | hmore := hstate
  · obtain ⟨kbd, hkbd, hscanning⟩ := h.step_read behind mid (.inl hwait)
      (by rw [keyboardTask, hwait]) fun b driver => by
        rw [h.scanned.of_waitScan hwait]
        exact scanned_first { s.kbd with keyboardDriver := driver } h.cells b
    exact ⟨_, hkbd, hscanning, rfl, rfl⟩
  · obtain ⟨kbd, hkbd, hscanning⟩ := h.step_read behind mid (.inr hmore)
      (by rw [keyboardTask, hmore]) fun b driver =>
        scanned_next { s.kbd with keyboardDriver := driver }
          (h.scanned.congr rfl rfl) hmore b
    exact ⟨_, hkbd, hscanning, rfl, rfl⟩

/-- **Every step is defined and keeps the invariant**, whatever the bytes are. -/
theorem Scanning.step (h : Scanning s) (op : KeyboardOp) :
    ∃ s', s.step behind op = .ok s' ∧ Scanning s' := by
  cases op with
  | recv data => exact h.step_recv behind data
  | task mid =>
    cases hstate : s.kbd.kbdState with
    | reset => exact h.step_reset behind mid hstate
    | waitScan =>
      obtain ⟨s', hs', hscanning, -⟩ := h.step_reading behind mid (.inl hstate)
      exact ⟨s', hs', hscanning⟩
    | readMore =>
      obtain ⟨s', hs', hscanning, -⟩ := h.step_reading behind mid (.inr hstate)
      exact ⟨s', hs', hscanning⟩
    | translate =>
      obtain ⟨s', hs', hscanning, -⟩ := h.step_translate behind mid hstate
      exact ⟨s', hs', hscanning⟩

end Step

/-! ## Every run -/

section Runs

variable (behind : ℕ → Keycode) (ops : List KeyboardOp)

/-- Every run is defined. -/
theorem scanning_run : ∃ s, Run.run (ScanRun.step behind) .start ops = .ok s ∧ Scanning s :=
  Run.run_total (fun _ op h => h.step behind op) scanning_start ops

/-- **The cells of the sequence are never overrun, and no length is unexpected.** Whatever the bytes
are and whenever they arrive, every step is defined, so that all writes are inside the cells. While
bytes are missing, at least one is, and they fit behind those that were read. A sequence that is
translated has one of the lengths that the code knows, and none is reported as unknown. -/
theorem keyboard_sequence_in_bounds :
    ∃ s, Run.run (ScanRun.step behind) .start ops = .ok s ∧
      s.kbd.kbdSeq.scancodes.length = 8 ∧
      (s.kbd.kbdState = .readMore →
        1 ≤ s.kbd.kbdSeq.need ∧ s.kbd.kbdSeq.len + s.kbd.kbdSeq.need ≤ 8) ∧
      (s.kbd.kbdState = .translate → s.kbd.kbdSeq.len ∈ [1, 2, 3, 4, 6, 8]) ∧
      "unknown sequence len" ∉ s.messages := by
  obtain ⟨s, hrun, h⟩ := scanning_run behind ops
  refine ⟨s, hrun, h.cells, fun hstate => ?_, fun hstate => ?_, h.messages⟩
  · obtain ⟨holds, -, pos, hlen⟩ := h.scanned.of_readMore hstate
    refine ⟨pos, ?_⟩
    rw [holds.len, ← hlen]
    exact readLen_le s.pending
  · obtain ⟨holds, whole⟩ := h.scanned.of_translate hstate
    rw [holds.len, whole]
    exact readLen_mem s.pending

/-- **A lookup is outside of `scan_to_key` exactly for a sequence without an entry.** In every run,
all indices are inside the table if and only if no sequence was a single byte from `0x88` on, or
such a byte behind `0xf0`. -/
theorem keyboard_lookups_in_table_iff :
    ∃ s, Run.run (ScanRun.step behind) .start ops = .ok s ∧
      ((∀ i ∈ s.lookups, i < scanToKey.length) ↔ ∀ bytes ∈ s.sequences, ¬ NoEntry bytes) := by
  obtain ⟨s, hrun, h⟩ := scanning_run behind ops
  refine ⟨s, hrun, ?_⟩
  simp only [h.lookups, List.mem_filterMap]
  constructor
  · intro hall bytes hbytes hno
    obtain ⟨i, hi, hge⟩ := (h.whole bytes hbytes).lookupIndex_iff.mpr hno
    exact absurd (hall i ⟨bytes, hbytes, hi⟩) (Nat.not_lt.mpr hge)
  · rintro hall i ⟨bytes, hbytes, hi⟩
    by_contra hge
    exact hall bytes hbytes
      ((h.whole bytes hbytes).lookupIndex_iff.mp ⟨i, hi, Nat.le_of_not_lt hge⟩)

/-- The keyboard answers `0xfa`, its acknowledgement, and the lookup is outside of the table. -/
theorem keyboard_lookup_outside_ack :
    ¬ ∀ (behind : ℕ → Keycode) (ops : List KeyboardOp),
      ∃ s, Run.run (ScanRun.step behind) .start ops = .ok s ∧
        ∀ i ∈ s.lookups, i < scanToKey.length := by
  intro h
  obtain ⟨s, hrun, hall⟩ := h (fun _ => .keyUnk) [.task [], .recv 0xfa, .task [], .task []]
  have hlookups : (Run.run (ScanRun.step fun _ => .keyUnk) .start
      [.task [], .recv 0xfa, .task [], .task []]).toOption.map ScanRun.lookups = some [0xfa] := by
    decide +kernel
  rw [hrun] at hlookups
  have hmem : 0xfa ∈ s.lookups := by
    rw [Option.some.inj hlookups]
    exact List.mem_singleton_self _
  have hlt := hall _ hmem
  rw [length_scanToKey] at hlt
  omega

/-- The sequence in progress is translated once as many bytes were read as the machine reads. -/
theorem Scanning.translate_iff {s : ScanRun} (h : Scanning s) (more : List UInt8) :
    s.pending.length ≤ readLen (s.pending ++ more) ∧
      (s.kbd.kbdState = .translate ↔ s.pending.length = readLen (s.pending ++ more)) := by
  cases hstate : s.kbd.kbdState with
  | reset =>
    have hpos := readLen_pos (s.pending ++ more)
    rw [h.scanned.of_reset hstate] at hpos ⊢
    simp only [List.length_nil, reduceCtorEq, false_iff]
    omega
  | waitScan =>
    have hpos := readLen_pos (s.pending ++ more)
    rw [h.scanned.of_waitScan hstate] at hpos ⊢
    simp only [List.length_nil, reduceCtorEq, false_iff]
    omega
  | readMore =>
    obtain ⟨-, -, pos, hlen⟩ := h.scanned.of_readMore hstate
    have hmissing : s.pending.length < readLen s.pending := by omega
    have hlt := length_lt_readLen_append hmissing more
    simp only [reduceCtorEq, false_iff]
    omega
  | translate =>
    obtain ⟨-, whole⟩ := h.scanned.of_translate hstate
    have hlen := whole.readLen_append more
    rw [Whole] at whole
    simp only [true_iff]
    omega

/-- **The framing follows scan code set 2 exactly on the streams that are not reframed.** In every
run, the number of bytes read for a sequence is the one that the grammar gives for the stream from
its first byte on, if and only if the third byte of that stream does not pass for the one that marks
the break code of print screen. While a sequence is read, it is translated once that number of
bytes was read. A call that finds a byte reads it, and a call behind the last byte of a sequence
translates it. -/
theorem keyboard_framing_follows_grammar_iff :
    ∃ s, Run.run (ScanRun.step behind) .start ops = .ok s ∧
      (∀ bytes ∈ s.sequences, ∀ more,
        bytes.length = grammarLen (bytes ++ more) ↔ ¬ Reframed (bytes ++ more)) ∧
      (∀ more, ¬ Reframed (s.pending ++ more) →
        s.pending.length ≤ grammarLen (s.pending ++ more) ∧
        (s.kbd.kbdState = .translate ↔ s.pending.length = grammarLen (s.pending ++ more))) ∧
      (s.kbd.kbdState = .waitScan ∨ s.kbd.kbdState = .readMore →
        ∀ mid, ∃ s', s.step behind (.task mid) = .ok s' ∧ s'.sequences = s.sequences ∧
          s'.pending = s.pending ++ s.kbd.keyboardDriver.queue.head?.toList) ∧
      (s.kbd.kbdState = .translate →
        ∀ mid, ∃ s', s.step behind (.task mid) = .ok s' ∧
          s'.sequences = s.sequences ++ [s.pending] ∧ s'.pending = []) := by
  obtain ⟨s, hrun, h⟩ := scanning_run behind ops
  refine ⟨s, hrun, fun bytes hbytes more => ?_, fun more hmore => ?_, fun hstate mid => ?_,
    fun hstate mid => ?_⟩
  · have whole := h.whole bytes hbytes
    rw [← readLen_eq_grammarLen_iff, whole.readLen_append, ← whole]
  · rw [← (readLen_eq_grammarLen_iff _).mpr hmore]
    exact h.translate_iff more
  · obtain ⟨s', hs', -, hpending, hsequences⟩ := h.step_reading behind mid hstate
    exact ⟨s', hs', hsequences, hpending⟩
  · obtain ⟨s', hs', -, hpending, hsequences⟩ := h.step_translate behind mid hstate
    exact ⟨s', hs', hsequences, hpending⟩

/-- A damaged pause sequence ends behind six bytes, and the rest of it becomes keys. -/
theorem keyboard_framing_damaged_pause :
    ¬ ∀ (behind : ℕ → Keycode) (ops : List KeyboardOp),
      ∃ s, Run.run (ScanRun.step behind) .start ops = .ok s ∧
        ∀ bytes ∈ s.sequences, ∀ more, bytes.length = grammarLen (bytes ++ more) := by
  intro h
  obtain ⟨s, hrun, hall⟩ := h (fun _ => .keyUnk)
    (.task [0xe1] :: .task [0x14, 0x7c, 0xe1, 0xf0, 0x14] :: List.replicate 6 (.task []))
  have hsequences : (Run.run (ScanRun.step fun _ => .keyUnk) .start
      (.task [0xe1] :: .task [0x14, 0x7c, 0xe1, 0xf0, 0x14] ::
        List.replicate 6 (.task []))).toOption.map ScanRun.sequences =
      some [[0xe1, 0x14, 0x7c, 0xe1, 0xf0, 0x14]] := by
    decide +kernel
  rw [hrun] at hsequences
  have hmem : [0xe1, 0x14, 0x7c, 0xe1, 0xf0, 0x14] ∈ s.sequences := by
    rw [Option.some.inj hsequences]
    exact List.mem_singleton_self _
  exact absurd (hall _ hmem []) (by decide)

end Runs

end Ahos
