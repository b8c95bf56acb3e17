import Ahos.Arch.Execution
import Ahos.Kernel.Log
import Ahos.Kernel.Symbol.Panic
import Ahos.Libc.Printf.ReadBack

/-!
# The panic handler

`panic.c`: the message and the call trace, up to the endless loop in which the handler stops. The
trace follows the frame pointers of the stack; the symbols come from the symbol table.
-/

namespace Ahos

/-! ## The handler -/

/-- The size of `error_buf`. -/
def errorBufSize : ℕ := 256

/-- The interrupted code, behind the registers on the stack of `isr_common_stub`: `ebp[13]`. -/
def interruptedEip (mem : ℕ → ℕ) (ebp : ℕ) : ℕ := mem (ebp + 4 * 13)

/-- `printf` in the state of the log. -/
def LogState.printf (mem : List UInt8) (s : LogState) (fmt : String) (args : List ℕ) :
    Outcome LogState := do
  let (_, k) ← Ahos.printf mem s.console (ascii fmt ++ [0]) args
  return { s with console := k }

/-- A line of the trace: `symbol_find`, and its `printf`. The name is read from the copy of the
symbol. -/
def traceLine (sm : SymMap) (s : LogState) (ebp eip : ℕ) : Outcome LogState := do
  match ← symbolFind sm eip with
  | some sym =>
    s.printf sym.name "- (ebp=0x%.8x) %s() + 0x%x/0x%x\n"
      [ebp, 0, Word32.sub eip sym.addr, sym.len]
  | none => s.printf [] "- (ebp=0x%.8x) ????? / 0x%x\n" [ebp, eip]

/-- The address lies in the symbol of `isr_common_stub`. -/
def inIsrHandler (isrHandlerSym : Symbol) (eip : ℕ) : Prop :=
  isrHandlerSym.addr ≤ eip ∧ eip < Word32.add isrHandlerSym.addr isrHandlerSym.len

instance (isrHandlerSym : Symbol) (eip : ℕ) : Decidable (inIsrHandler isrHandlerSym eip) :=
  inferInstanceAs (Decidable (_ ∧ _))

/-- A frame: its return address and, behind the call in `isr_common_stub`, the interrupted code. -/
def traceFrame (sm : SymMap) (isrHandlerSym : Symbol) (mem : ℕ → ℕ) (s : LogState)
    (ebp eip : ℕ) : Outcome LogState := do
  let s ← traceLine sm s (mem ebp) eip
  if inIsrHandler isrHandlerSym eip then
    traceLine sm s (mem ebp) (interruptedEip mem ebp)
  else return s

/-- The loop over the frames, for a bounded number of rounds. -/
def dumpStack (sm : SymMap) (isrHandlerSym : Symbol) (mem : ℕ → ℕ) :
    ℕ → LogState → ℕ → Outcome LogState
  | 0, _, _ => .error .loops
  | rounds + 1, s, ebp => do
    let eip := mem (ebp + 4)
    if eip = 0 ∨ mem ebp = 0 then return s
    else
      let s ← traceFrame sm isrHandlerSym mem s ebp eip
      dumpStack sm isrHandlerSym mem rounds s (mem ebp)

/-- A symbol of zeros. -/
def noSymbol : Symbol := ⟨0, 0, List.replicate symbolMaxLen 0⟩

/-- `LOG_MODULE`. -/
def panicModule : List UInt8 := ascii "panic" ++ [0]

/-- The lookup of `isr_common_stub`. The handler goes on without it. -/
def lookupIsrHandler (sm : SymMap) (s : LogState) : Outcome (Symbol × LogState) := do
  match ← symbolLookup sm isrCommonStub with
  | some sym => return (sym, s)
  | none => do
    let s ← logMacro panicModule s .warn 0 (ascii "failed to retrieve isr_handler address") []
    return (noSymbol, s)

/-- The arguments of `panic`: the memory of its strings, the format and the words of `va_list`. -/
structure PanicCall where
  mem : List UInt8
  msg : List UInt8
  args : List ℕ

/-- `panic`, entered with the frame pointer `ebp`, up to its endless loop. `garbage` is what
`error_buf` holds before it is written. -/
def panicHandler (sm : SymMap) (mem : ℕ → ℕ) (rounds : ℕ) (garbage : List UInt8) (s : LogState)
    (ebp : ℕ) (call : PanicCall) : Outcome LogState := do
  let (isrHandlerSym, s) ← lookupIsrHandler sm s
  let s ← s.printf [] "\n=============\n" []
  let s ← s.printf [] "=== PANIC ===\n" []
  let s ← s.printf [] "=============\n\n" []
  let text ← vsprintf call.mem errorBufSize call.msg call.args
  let errorBuf := text.out ++ 0 :: garbage.drop (text.out.length + 1)
  let errorBuf := errorBuf.set (errorBufSize - 1) 0
  let s ← s.printf errorBuf "error: %s\n\n" [0]
  let s ← s.printf [] "Call trace:\n" []
  dumpStack sm isrHandlerSym mem rounds s ebp

/-! ## Strings in arrays -/

/-- The argument of a `%s` that points to the start of an array. -/
theorem cstring_valid {bytes : List UInt8} (hnul : 0 ∈ bytes) (hlen : bytes.length < 2147483648) :
    (Conversion.string 0 (cstring bytes)).Valid bytes := by
  have hle := cstring_length_le bytes
  obtain ⟨rest, hrest⟩ := exists_cstring hnul
  exact ⟨⟨rest, hrest⟩, notMem_cstring bytes, by omega⟩

/-! ## The text of the report -/

/-- `%x`. -/
def hexItem (arg : ℕ) : FormatItem :=
  .directive ⟨[], none, none, none, .integer .lowerHex arg⟩

/-- `%.8x`. -/
def hex8Item (arg : ℕ) : FormatItem :=
  .directive ⟨[], none, some (.digits (ascii "8")), none, .integer .lowerHex arg⟩

/-- A line of the trace. -/
def traceItems (found : Option Symbol) (ebp eip : ℕ) : List FormatItem :=
  literals (ascii "- (ebp=0x") ++ [hex8Item ebp] ++
    match found with
    | some sym =>
      literals (ascii ") ") ++ [stringItem 0 (cstring sym.name)] ++ literals (ascii "() + 0x") ++
        [hexItem (Word32.sub eip sym.addr)] ++ literals (ascii "/0x") ++ [hexItem sym.len] ++
        literals (ascii "\n")
    | none => literals (ascii ") ????? / 0x") ++ [hexItem eip] ++ literals (ascii "\n")

/-- The symbol that `symbol_find` finds. -/
def SymMap.found (sm : SymMap) (addr : ℕ) : Option Symbol :=
  match symbolFind sm addr with
  | .ok found => found
  | .error _ => none

/-- The frame pointers and the addresses that the trace shows, up to the call of `kernel_main`. An
interrupt is shown by the return address in `isr_common_stub` and, if its symbol is `known`, by the
interrupted instruction. -/
def callTrace (img : KernelLayout) (known : Bool) : List Activation → List (ℕ × ℕ)
  | [] => []
  | [_] => []
  | .call ret _ ebp :: acts => (ebp, ret) :: callTrace img known acts
  | .isr _ _ saved :: acts =>
    (saved.ebp, img.stubRet) :: ((if known then [(saved.ebp, saved.eip)] else []) ++
      callTrace img known acts)

/-- The text of the trace. -/
def traceText (sm : SymMap) (lines : List (ℕ × ℕ)) : List UInt8 :=
  lines.flatMap fun line => formatText (traceItems (sm.found line.2) line.1 line.2)

/-- The text of the report. -/
def panicText (sm : SymMap) (msg : List UInt8) (lines : List (ℕ × ℕ)) : List UInt8 :=
  ascii "\n=============\n" ++ ascii "=== PANIC ===\n" ++ ascii "=============\n\n" ++
    (ascii "error: " ++ cstring msg ++ ascii "\n\n") ++ ascii "Call trace:\n" ++
    traceText sm lines

/-! ## Printing a line -/

theorem hexItem_valid (mem : List UInt8) {arg : ℕ} (h : arg < 4294967296) :
    (hexItem arg).Valid mem :=
  ⟨nofun, nofun, by simpa [Conversion.Valid, Conversion.args] using h⟩

theorem hex8Item_valid (mem : List UInt8) {arg : ℕ} (h : arg < 4294967296) :
    (hex8Item arg).Valid mem := by
  refine ⟨nofun, fun amount hamount => ?_, by simpa [Conversion.Valid, Conversion.args] using h⟩
  obtain rfl := Option.some.inj hamount
  have hdigit : ∀ c ∈ [(0x38 : UInt8)], isdigit c := List.forall_mem_singleton.mpr (by decide)
  exact ⟨hdigit, by decide⟩

/-- A hexadecimal number has at most eight digits. -/
theorem hex_length_le (d : Directive) {arg : ℕ} (hwidth : d.fieldWidth = none)
    (hprecision : d.fieldPrecision.getD 0 ≤ 8) (hflags : d.flagBits = noFlags)
    (hconversion : d.conversion = .integer .lowerHex arg) : d.text.length ≤ 8 := by
  have hvalue : (integerValue false d.qualifier arg).natAbs < 4294967296 := by
    simp only [integerValue, Bool.false_eq_true, if_false, Int.natAbs_natCast]
    split_ifs <;> omega
  have hdigits := digitText_hex_length true hvalue
  rw [Directive.text, hconversion, hwidth, hflags]
  simp only [Conversion.text, IntegerKind.flags, IntegerKind.base, noFlags, numberText,
    Option.getD_none, padText_length, magnitudeText, signText, baseText, List.length_append,
    List.length_replicate, Bool.false_eq_true, if_false, List.length_nil]
  omega

/-- A call of `printf` prints its text. -/
theorem LogState.printf_follows {mem : List UInt8} {s : LogState} {r : Transcript}
    (h : s.Follows r) {items : List FormatItem} (hvalid : ∀ item ∈ items, item.Valid mem)
    (hfits : (formatText items).length < printfBuf) (fmt : String) {args : List ℕ}
    (hfmt : ascii fmt = formatBytes items) (hargs : args = formatArgs items) :
    ∃ s', s.printf mem fmt args = .ok s' ∧ s'.Follows (r.print (formatText items)) := by
  obtain ⟨k, hprintf, hshows⟩ := printf_spec h.console hvalid hfits [] []
  rw [List.append_nil] at hprintf
  refine ⟨{ s with console := k }, ?_, hshows, h.level⟩
  rw [LogState.printf, hfmt, hargs, hprintf]
  rfl

/-- A text without directives. -/
theorem LogState.printf_literals {s : LogState} {r : Transcript} (h : s.Follows r) (fmt : String)
    (hplain : PlainText (ascii fmt)) (hfits : (ascii fmt).length < printfBuf) :
    ∃ s', s.printf [] fmt [] = .ok s' ∧ s'.Follows (r.print (ascii fmt)) := by
  have hvalid : ∀ item ∈ literals (ascii fmt), item.Valid [] := literals_valid hplain
  have hprintf := LogState.printf_follows h hvalid (by rwa [formatText_literals]) fmt
    (formatBytes_literals _).symm (formatArgs_literals _).symm
  rwa [formatText_literals] at hprintf

/-! ## The trace -/

section Trace

variable {sm : SymMap}

/-- The symbols have names that end, and lengths of 32 bits. -/
structure SymMap.Printable (sm : SymMap) : Prop where
  ready : sm.Ready
  len_lt : ∀ i sym, sm.symbol i = .ok sym → sym.len < 4294967296

/-- The lengths in the entries of a table have 32 bits. -/
def LengthsFit (cells : List (Option Symbol)) : Prop :=
  ∀ sym, some sym ∈ cells → sym.len < 4294967296

theorem LengthsFit.set {cells : List (Option Symbol)} (h : LengthsFit cells) {sym : Symbol}
    (hlen : sym.len < 4294967296) (i : ℕ) : LengthsFit (cells.set i (some sym)) := by
  intro sym' hmem
  obtain hold | heq := List.mem_or_eq_of_mem_set hmem
  · exact h sym' hold
  · obtain rfl := Option.some.inj heq
    exact hlen

theorem LengthsFit.storeSymbol {cells cells' : List (Option Symbol)} {symIndex : ℕ} {sym : Symbol}
    (h : LengthsFit cells) (hlen : sym.len < 4294967296)
    (hstore : storeSymbol cells symIndex sym = .ok cells') : LengthsFit cells' := by
  obtain ⟨cells₁, hwrite, hstore⟩ := Run.bind_eq_ok.mp hstore
  obtain ⟨-, rfl⟩ := writeCell_ok hwrite
  split_ifs at hstore
  · obtain rfl := Except.ok.inj hstore
    exact h.set hlen _
  · obtain ⟨_ | last, -, hstore⟩ := Run.bind_eq_ok.mp hstore
    · cases hstore
    · obtain ⟨-, rfl⟩ := writeCell_ok hstore
      exact (h.set hlen _).set (Word32.wrap_lt _) _

/-- The lengths in the table of `symbol_init`. -/
def SymState.LengthsFit (t : SymState) : Prop :=
  ∀ cells, t.symMap.symbols = .live cells → Ahos.LengthsFit cells

theorem SymState.LengthsFit.step {env : SymEnv} {t u : SymState} (h : t.LengthsFit)
    (hstep : SymStep env t u) : u.LengthsFit := by
  cases hstep with
  | alloc =>
    intro cells hlive sym hmem
    simp only [SymEnv.array] at hlive
    split_ifs at hlive
    obtain rfl := SymArray.live.inj hlive
    cases List.eq_of_mem_replicate hmem
  | accept heol hcut hentry hline hrestore hstore =>
    intro cells hlive
    obtain rfl := SymArray.live.inj hlive
    exact (h _ rfl).storeSymbol (parseLine_accepted hline).2.2 hstore
  | free =>
    intro cells hlive
    cases hlive
  | skip | start | noLine | count | refuse | parse => exact h
  | lastLine | reject | oops | done | fail | stay => exact h

/-- **A table of `symbol_init` that is ready can be printed.** -/
theorem SymMap.Ready.printable {env : SymEnv} {map : List UInt8} {t : SymState}
    (hreach : (SymState.start map).Reaches env t) (h : t.symMap.Ready) : t.symMap.Printable := by
  have hstart : (SymState.start map).LengthsFit := fun cells hlive => by cases hlive
  have hfit : t.LengthsFit :=
    hreach.invariant (fun _ _ hinv hstep => hinv.step (SymState.step_cases hstep)) hstart
  refine ⟨h, fun i sym hsym => ?_⟩
  rw [SymMap.symbol] at hsym
  cases hsymbols : t.symMap.symbols with
  | null => rw [hsymbols] at hsym; cases hsym
  | freed => rw [hsymbols] at hsym; cases hsym
  | live cells =>
    rw [hsymbols] at hsym
    obtain ⟨_ | sym', hread, hsym⟩ := Run.bind_eq_ok.mp hsym
    · cases hsym
    · obtain rfl := Except.ok.inj hsym
      exact hfit cells hsymbols sym' (List.mem_of_getElem? (readCell_eq_ok.mp hread))

theorem symbolFindLoop_mem {addr : ℕ} {indices : List ℕ} {lastSym : Option Symbol} {sym : Symbol}
    (h : symbolFindLoop sm addr indices lastSym = .ok (some sym)) :
    lastSym = some sym ∨ ∃ i ∈ indices, sm.symbol i = .ok sym := by
  induction indices generalizing lastSym with
  | nil => exact .inl (Except.ok.inj h)
  | cons i indices ih =>
    rw [symbolFindLoop, Run.bind_eq_ok] at h
    obtain ⟨cur, hcur, h⟩ := h
    split_ifs at h
    · exact .inl (Except.ok.inj h)
    · obtain hlast | ⟨j, hj, hsym⟩ := ih h
      · obtain rfl := Option.some.inj hlast
        exact .inr ⟨i, List.mem_cons_self, hcur⟩
      · exact .inr ⟨j, List.mem_cons_of_mem i hj, hsym⟩

/-- What `symbol_find` finds is in the table. -/
theorem symbolFind_mem {addr : ℕ} {sym : Symbol} (h : symbolFind sm addr = .ok (some sym)) :
    ∃ i < sm.nbSyms, sm.symbol i = .ok sym := by
  unfold symbolFind at h
  split_ifs at h
  · cases h
  · cases h
  · rw [Run.bind_eq_ok] at h
    obtain ⟨found, hfound, h⟩ := h
    cases found with
    | none => cases h
    | some lastSym =>
      simp only at h
      split_ifs at h
      · cases h
      · obtain rfl := Option.some.inj (Except.ok.inj h)
        obtain hnone | ⟨i, hi, hsym⟩ := symbolFindLoop_mem hfound
        · cases hnone
        · exact ⟨i, List.mem_range.mp hi, hsym⟩

theorem traceItems_bytes (found : Option Symbol) (ebp eip : ℕ) :
    formatBytes (traceItems found ebp eip) = match found with
      | some _ => ascii "- (ebp=0x%.8x) %s() + 0x%x/0x%x\n"
      | none => ascii "- (ebp=0x%.8x) ????? / 0x%x\n" := by
  cases found <;> rfl

theorem traceItems_args (found : Option Symbol) (ebp eip : ℕ) :
    formatArgs (traceItems found ebp eip) = match found with
      | some sym => [ebp, 0, Word32.sub eip sym.addr, sym.len]
      | none => [ebp, eip] := by
  cases found <;> rfl

theorem hexItem_text_length_le (arg : ℕ) : (hexItem arg).text.length ≤ 8 :=
  hex_length_le _ rfl (Nat.zero_le 8) rfl rfl

theorem hex8Item_text_length_le (arg : ℕ) : (hex8Item arg).text.length ≤ 8 :=
  hex_length_le _ rfl (Nat.le_refl 8) rfl rfl

theorem traceItems_length_le {found : Option Symbol} {ebp eip : ℕ}
    (h : ∀ sym ∈ found, sym.name.length = symbolMaxLen) :
    (formatText (traceItems found ebp eip)).length < printfBuf := by
  have hsingle : ∀ item : FormatItem, formatText [item] = item.text := fun item => by
    simp [formatText]
  have hebp := hex8Item_text_length_le ebp
  cases found with
  | none =>
    have heip := hexItem_text_length_le eip
    simp only [traceItems, formatText_append, formatText_literals, hsingle, List.length_append]
    simp [ascii, printfBuf]
    omega
  | some sym =>
    have hoffset := hexItem_text_length_le (Word32.sub eip sym.addr)
    have hlen := hexItem_text_length_le sym.len
    have hname := (cstring_length_le sym.name).trans_eq (h sym rfl)
    simp only [traceItems, formatText_append, formatText_literals, hsingle, List.length_append,
      stringItem_text]
    simp [ascii, printfBuf, symbolMaxLen] at hname ⊢
    omega

theorem traceItems_valid {mem : List UInt8} {found : Option Symbol} {ebp eip : ℕ}
    (hebp : ebp < 4294967296) (heip : eip < 4294967296)
    (h : ∀ sym ∈ found, sym.len < 4294967296 ∧
      (Conversion.string 0 (cstring sym.name)).Valid mem) :
    ∀ item ∈ traceItems found ebp eip, item.Valid mem := by
  intro item hitem
  cases found with
  | none =>
    simp only [traceItems, List.mem_append, List.mem_singleton] at hitem
    obtain (hitem | rfl) | (hitem | rfl) | hitem := hitem
    · exact literals_valid (by decide) item hitem
    · exact hex8Item_valid mem hebp
    · exact literals_valid (by decide) item hitem
    · exact hexItem_valid mem heip
    · exact literals_valid (by decide) item hitem
  | some sym =>
    obtain ⟨hlen, hname⟩ := h sym rfl
    simp only [traceItems, List.mem_append, List.mem_singleton] at hitem
    obtain (hitem | rfl) | (((((hitem | rfl) | hitem) | rfl) | hitem) | rfl) | hitem := hitem
    · exact literals_valid (by decide) item hitem
    · exact hex8Item_valid mem hebp
    · exact literals_valid (by decide) item hitem
    · exact stringItem_valid hname
    · exact literals_valid (by decide) item hitem
    · exact hexItem_valid mem (Nat.mod_lt _ (by decide))
    · exact literals_valid (by decide) item hitem
    · exact hexItem_valid mem hlen
    · exact literals_valid (by decide) item hitem

/-- **A line of the trace** shows what the symbol table says about the address. -/
theorem traceLine_follows (hsm : sm.Printable) {s : LogState} {r : Transcript} (h : s.Follows r)
    {ebp eip : ℕ} (hebp : ebp < 4294967296) (heip : eip < 4294967296) :
    ∃ s', traceLine sm s ebp eip = .ok s' ∧
      s'.Follows (r.print (formatText (traceItems (sm.found eip) ebp eip))) := by
  obtain ⟨found, hfound⟩ := hsm.ready.find eip
  have heq : sm.found eip = found := by rw [SymMap.found, hfound]
  rw [traceLine, hfound, Run.ok_bind, heq]
  cases found with
  | none =>
    have hitems := @traceItems_valid [] none ebp eip hebp heip nofun
    exact LogState.printf_follows h hitems (traceItems_length_le nofun) _
      (traceItems_bytes none ebp eip).symm (traceItems_args none ebp eip).symm
  | some sym =>
    obtain ⟨i, hi, hsym⟩ := symbolFind_mem hfound
    obtain ⟨sym', hsym', hname, hnul⟩ := hsm.ready i hi
    obtain rfl := Except.ok.inj (hsym.symm.trans hsym')
    have hvalid : (Conversion.string 0 (cstring sym.name)).Valid sym.name :=
      cstring_valid hnul (by rw [hname]; decide)
    have hitems : ∀ item ∈ traceItems (some sym) ebp eip, item.Valid sym.name :=
      traceItems_valid hebp heip fun sym' heq => by
        obtain rfl := Option.some.inj heq
        exact ⟨hsm.len_lt i sym hsym, hvalid⟩
    have hlength : (formatText (traceItems (some sym) ebp eip)).length < printfBuf :=
      traceItems_length_le fun sym' heq => by
        obtain rfl := Option.some.inj heq
        exact hname
    exact LogState.printf_follows h hitems hlength _
      (traceItems_bytes (some sym) ebp eip).symm (traceItems_args (some sym) ebp eip).symm

/-- The symbol of `isr_common_stub` that `panic` works with, if the table has the right one: the
interrupts that it recognizes. -/
theorem inIsrHandler_iff {img : KernelLayout} {found : Option Symbol}
    (h : ∀ sym ∈ found, sym.addr = img.stub ∧ sym.len = img.stubLen) (eip : ℕ) :
    inIsrHandler (found.getD noSymbol) eip ↔ found.isSome ∧ img.InStub eip := by
  cases found with
  | none => simp [inIsrHandler, noSymbol, Word32.add, Word32.wrap]
  | some sym =>
    obtain ⟨haddr, hlen⟩ := h sym rfl
    simp [inIsrHandler, KernelLayout.InStub, haddr, hlen, Word32.add, Word32.wrap,
      Nat.mod_eq_of_lt img.stub_lt]

theorem Transcript.print_nil (r : Transcript) : r.print [] = r := by
  simp [Transcript.print]

theorem Transcript.print_print (r : Transcript) (text text' : List UInt8) :
    (r.print text).print text' = r.print (text ++ text') := by
  simp [Transcript.print, List.foldl_append, List.append_assoc]

variable {img : KernelLayout} {mem : ℕ → ℕ} {a ebp : ℕ} {acts : List Activation}

/-- The frame pointers in the frames are addresses in the stack. -/
theorem Frames.ebp_mem {bootEbp : ℕ} (h : Frames img bootEbp mem a ebp acts) (hacts : acts ≠ [])
    (ha : img.stackBottom ≤ a) : ebp ≠ 0 ∧ ebp < 4294967296 := by
  obtain ⟨act, acts, rfl⟩ := List.exists_cons_of_ne_nil hacts
  obtain ⟨hle, -, hesp, -, hrest⟩ := h
  have htop := hrest.le_stackTop
  have hbottom := img.stackBottom_pos
  have hbound := img.stackBottom_le
  have hlength : 0 < (act.words img).length := by
    cases act <;> simp [Activation.words, trapFrame]
  simp only [KernelLayout.stackTop] at htop
  omega

/-- The address behind the frame pointer. -/
def Activation.ret (img : KernelLayout) : Activation → ℕ
  | .call ret _ _ => ret
  | .isr _ _ _ => img.stubRet

/-- What the trace reads from a frame. -/
theorem Frames.read {bootEbp : ℕ} {act : Activation}
    (h : Frames img bootEbp mem a ebp (act :: acts)) :
    mem ebp = act.ebp ∧ mem (ebp + 4) = act.ret img ∧ act.ret img ≠ 0 ∧
      act.ret img < 4294967296 := by
  obtain ⟨-, hwords, -, hproper, -⟩ := h
  obtain ⟨hle, hlt⟩ := img.stubRet_mem
  have hpos := img.stub_pos
  have hbound := img.stub_lt
  cases act with
  | call ret esp ebp => exact ⟨hwords.1, hwords.2.1, hproper.1, hproper.2.1⟩
  | isr vector errorCode saved =>
    refine ⟨hwords.1, hwords.2.1, ?_, ?_⟩
    · simp only [Activation.ret]
      omega
    · simp only [Activation.ret]
      omega

/-- The lines of a frame that is not the last one. -/
def frameTrace (img : KernelLayout) (known : Bool) : Activation → List (ℕ × ℕ)
  | .call ret _ ebp => [(ebp, ret)]
  | .isr _ _ saved =>
    (saved.ebp, img.stubRet) :: if known then [(saved.ebp, saved.eip)] else []

theorem callTrace_cons (known : Bool) {act : Activation} (hacts : acts ≠ []) :
    callTrace img known (act :: acts) = frameTrace img known act ++ callTrace img known acts := by
  obtain ⟨act', acts, rfl⟩ := List.exists_cons_of_ne_nil hacts
  cases act <;> rfl

/-- **A frame is shown by its lines.** -/
theorem traceFrame_follows (hsm : sm.Printable) {found : Option Symbol}
    (hfound : ∀ sym ∈ found, sym.addr = img.stub ∧ sym.len = img.stubLen) {act : Activation}
    {bootEbp : ℕ} (hframes : Frames img bootEbp mem a ebp (act :: acts))
    (hebp : act.ebp < 4294967296) {s : LogState} {r : Transcript} (h : s.Follows r) :
    ∃ s', traceFrame sm (found.getD noSymbol) mem s ebp (act.ret img) = .ok s' ∧
      s'.Follows (r.print (traceText sm (frameTrace img found.isSome act))) := by
  obtain ⟨hread, -, -, hret⟩ := hframes.read
  obtain ⟨s₁, hline, h₁⟩ := traceLine_follows hsm h hebp hret
  rw [traceFrame, hread, hline, Run.ok_bind]
  obtain ⟨-, hwords, -, hproper, -⟩ := hframes
  cases act with
  | call ret esp ebp' =>
    have hout : ¬inIsrHandler (found.getD noSymbol) ret := fun hin =>
      hproper.2.2 ((inIsrHandler_iff hfound ret).mp hin).2
    exact ⟨s₁, if_neg hout, by
      simpa [traceText, frameTrace, Activation.ret, Activation.ebp] using h₁⟩
  | isr vector errorCode saved =>
    have hsaved : interruptedEip mem ebp = saved.eip := by
      obtain ⟨-, -, -, -, -, -, -, -, -, -, -, -, -, heip, -⟩ := hwords
      simpa only [interruptedEip, Nat.add_assoc, Nat.reduceAdd, Nat.reduceMul] using heip
    have hin : inIsrHandler (found.getD noSymbol) img.stubRet ↔ found.isSome :=
      (inIsrHandler_iff hfound img.stubRet).trans (and_iff_left img.stubRet_mem)
    by_cases hknown : found.isSome
    · obtain ⟨s₂, hline', h₂⟩ := traceLine_follows hsm h₁ hebp hproper
      refine ⟨s₂, ?_, ?_⟩
      · rw [Activation.ret, if_pos (hin.mpr hknown), hsaved, hline']
      · rw [Transcript.print_print] at h₂
        simpa [traceText, frameTrace, Activation.ret, Activation.ebp, hknown] using h₂
    · refine ⟨s₁, if_neg fun hstub => hknown (hin.mp hstub), ?_⟩
      simpa [traceText, frameTrace, Activation.ret, Activation.ebp, hknown] using h₁

/-- **The trace shows the activations**, and ends. -/
theorem dumpStack_follows (hsm : sm.Printable) {found : Option Symbol}
    (hfound : ∀ sym ∈ found, sym.addr = img.stub ∧ sym.len = img.stubLen)
    (hframes : Frames img 0 mem a ebp acts) (ha : img.stackBottom ≤ a) (hacts : acts ≠ [])
    {rounds : ℕ} (hrounds : acts.length ≤ rounds) {s : LogState} {r : Transcript}
    (h : s.Follows r) :
    ∃ s', dumpStack sm (found.getD noSymbol) mem rounds s ebp = .ok s' ∧
      s'.Follows (r.print (traceText sm (callTrace img found.isSome acts))) := by
  induction acts generalizing a ebp rounds s r with
  | nil => exact absurd rfl hacts
  | cons act acts ih =>
    obtain ⟨hread, hret, hret_ne, -⟩ := hframes.read
    have hle := hframes.1
    have hesp := hframes.2.2.1
    have hrest := hframes.2.2.2.2
    rw [List.length_cons] at hrounds
    obtain ⟨rounds, rfl⟩ : ∃ n, rounds = n + 1 := ⟨rounds - 1, by omega⟩
    rw [dumpStack, hret, hread]
    by_cases hlast : acts = []
    · -- `_start` has left a frame pointer of zero.
      rw [hlast] at hrest
      have htrace : callTrace img found.isSome [act] = [] := by cases act <;> rfl
      refine ⟨s, by rw [if_pos (.inr hrest.2)]; rfl, ?_⟩
      rw [hlast, htrace]
      exact (Transcript.print_nil r).symm ▸ h
    · have hbottom : img.stackBottom ≤ act.esp := by omega
      obtain ⟨hebp_ne, hebp_lt⟩ := hrest.ebp_mem hlast hbottom
      obtain ⟨s₁, hframe, h₁⟩ := traceFrame_follows hsm hfound hframes hebp_lt h
      obtain ⟨s', hdump, h'⟩ := @ih act.esp act.ebp hrest hbottom hlast rounds (by omega) _ _ h₁
      refine ⟨s', ?_, ?_⟩
      · rw [if_neg (not_or.mpr ⟨hret_ne, hebp_ne⟩), hframe, Run.ok_bind, hdump]
      · rw [Transcript.print_print] at h'
        rw [callTrace_cons _ hlast, traceText, List.flatMap_append]
        exact h'

end Trace

/-! ## The report -/

/-- The warning of a lookup that fails. -/
def lookupFailed : LogCall :=
  .message .warn 0 (ascii "panic") (literals (ascii "failed to retrieve isr_handler address"))

/-- The log behind the lookup. -/
def Transcript.lookup (r : Transcript) (found : Option Symbol) : Transcript :=
  if found.isSome then r else r.call lookupFailed

theorem lookupIsrHandler_follows {sm : SymMap} {found : Option Symbol}
    (hlookup : symbolLookup sm isrCommonStub = .ok found) {s : LogState} {r : Transcript}
    (h : s.Follows r) :
    ∃ s', lookupIsrHandler sm s = .ok (found.getD noSymbol, s') ∧ s'.Follows (r.lookup found) := by
  rw [lookupIsrHandler, hlookup, Run.ok_bind]
  cases found with
  | some sym => exact ⟨s, rfl, h⟩
  | none =>
    have hvalid : lookupFailed.Valid panicModule :=
      ⟨⟨⟨[], rfl⟩, by decide, by decide⟩, literals_valid (by decide), rfl⟩
    have hfits : (lookupFailed.text r.level).length < printfBuf := by
      simp only [lookupFailed, LogCall.text]
      split_ifs
      · simp only [messageText, formatText_literals]
        decide
      · decide
    obtain ⟨s', hcall, h'⟩ := LogState.call_follows h hvalid hfits
    have hwarn : logMacro panicModule s .warn 0
        (ascii "failed to retrieve isr_handler address") [] = .ok s' := by
      rw [lookupFailed, LogState.call, formatBytes_literals, formatArgs_literals] at hcall
      exact hcall
    exact ⟨s', by rw [hwarn]; rfl, h'⟩

/-- What `error_buf` holds: the text of the message, up to its first NUL. -/
theorem errorBuf_eq {text garbage : List UInt8} (htext : text.length < errorBufSize)
    (hgarbage : garbage.length = errorBufSize) :
    ∃ rest, (text ++ 0 :: garbage.drop (text.length + 1)).set (errorBufSize - 1) 0 =
      text ++ 0 :: rest ∧ (text ++ 0 :: rest).length = errorBufSize := by
  have hlast : text.length ≤ errorBufSize - 1 := Nat.le_sub_one_of_lt htext
  have hdrop : (garbage.drop (text.length + 1)).length = errorBufSize - (text.length + 1) := by
    rw [List.length_drop, hgarbage]
  rw [List.set_append_right _ _ hlast]
  cases errorBufSize - 1 - text.length with
  | zero =>
    refine ⟨garbage.drop (text.length + 1), rfl, ?_⟩
    rw [List.length_append, List.length_cons]
    omega
  | succ n =>
    refine ⟨(garbage.drop (text.length + 1)).set n 0, rfl, ?_⟩
    rw [List.length_append, List.length_cons, List.length_set]
    omega

/-- The line of the message. -/
def errorItems (text : List UInt8) : List FormatItem :=
  literals (ascii "error: ") ++ [stringItem 0 text] ++ literals (ascii "\n\n")

theorem errorLine_follows {s : LogState} {r : Transcript} (h : s.Follows r) {buf : List UInt8}
    (hnul : 0 ∈ buf) (hlength : buf.length = errorBufSize) :
    ∃ s', s.printf buf "error: %s\n\n" [0] = .ok s' ∧
      s'.Follows (r.print (ascii "error: " ++ cstring buf ++ ascii "\n\n")) := by
  have htext : formatText (errorItems (cstring buf)) =
      ascii "error: " ++ cstring buf ++ ascii "\n\n" := by
    have hstring : formatText [stringItem 0 (cstring buf)] = cstring buf := by
      simp [formatText, stringItem_text]
    simp only [errorItems, formatText_append, formatText_literals, hstring]
  have hvalid : ∀ item ∈ errorItems (cstring buf), item.Valid buf := by
    intro item hitem
    simp only [errorItems, List.mem_append, List.mem_singleton] at hitem
    obtain (hitem | rfl) | hitem := hitem
    · exact literals_valid (by decide) item hitem
    · exact stringItem_valid (cstring_valid hnul (by rw [hlength]; decide))
    · exact literals_valid (by decide) item hitem
  have hfits : (formatText (errorItems (cstring buf))).length < printfBuf := by
    have hle := cstring_length_le buf
    rw [htext]
    simp [ascii, printfBuf, errorBufSize] at hlength ⊢
    omega
  have hprintf := LogState.printf_follows h hvalid hfits "error: %s\n\n" rfl rfl
  rwa [htext] at hprintf

section Report

variable {img : KernelLayout} {regs : Regs} {mem : ℕ → ℕ} {e : Exec} {env : SymEnv}
  {map : List UInt8} {t : SymState} {found : Option Symbol} {s : LogState} {r : Transcript}

end Report

end Ahos
