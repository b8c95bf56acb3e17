import Ahos.Libc.Stdio

/-!
# The kernel log

The macros of `log.h` and the start of `kernel_early_init`. A message is printed if its level is
enabled, in the colour of its kind and behind the name of its module.

The log is compared with a transcript: the page that holds the printed text and the bytes on the
serial line. What the transcript takes from a format is the text that it stands for.
-/

namespace Ahos

/-! ## The macros -/

/-- `dbg`, `info`, `success`, `warn` and `error`. -/
inductive LogKind where
  | dbg
  | info
  | success
  | warn
  | error
deriving DecidableEq, Repr

namespace LogKind

/-- The colour of the kind, on black: light grey, white, green, brown or red. -/
def color : LogKind → UInt8
  | dbg => vgaEntryColor 7 0
  | info => vgaEntryColor 15 0
  | success => vgaEntryColor 2 0
  | warn => vgaEntryColor 6 0
  | error => vgaEntryColor 4 0

/-- `LOG_DEBUG`, `LOG_INFO`, `LOG_INFO`, `LOG_WARN` and `LOG_ERROR`. -/
def level : LogKind → ℕ
  | dbg => 3
  | info => 2
  | success => 2
  | warn => 1
  | error => 0

/-- `"DBG: "`, `"WARN: "`, `"ERROR: "`, or nothing. -/
def prefixe : LogKind → List UInt8
  | dbg => ascii "DBG: "
  | info => []
  | success => []
  | warn => ascii "WARN: "
  | error => ascii "ERROR: "

end LogKind

/-- The console and `g_log_level`. -/
structure LogState where
  console : Console
  gLogLevel : ℕ

/-- The initial value of `g_log_level`. -/
def logInfo : ℕ := 2

/-- A format literal: the bytes up to the NUL of `"[%s] "`, the prefix, the format and a line
feed. -/
def logFormat (kind : LogKind) (fmt : List UInt8) : List UInt8 :=
  ascii "[%s] " ++ kind.prefixe ++ fmt ++ ascii "\n" ++ [0]

/-- `log_macro_def`, in a module with its name at `logModule`. -/
def logMacroDef (mem : List UInt8) (s : LogState) (kind : LogKind) (logModule : ℕ)
    (fmt : List UInt8) (args : List ℕ) : Outcome LogState :=
  if kind.level ≤ s.gLogLevel then do
    let (_, k) ← printf mem s.console (logFormat kind fmt) (logModule :: args)
    return { s with console := k }
  else return s

/-- `terminal_setcolor` and `terminal_reset_color`, in the state of the log. -/
def LogState.onTerminal (s : LogState) (f : Terminal → Terminal) : LogState :=
  { s with console := { s.console with terminal := f s.console.terminal } }

/-- The macros. -/
def logMacro (mem : List UInt8) (s : LogState) (kind : LogKind) (logModule : ℕ)
    (fmt : List UInt8) (args : List ℕ) : Outcome LogState := do
  let s := s.onTerminal (terminalSetcolor · kind.color)
  let s ← logMacroDef mem s kind logModule fmt args
  return s.onTerminal terminalResetColor

/-- `log_set_level`. -/
def logSetLevel (s : LogState) (level : ℕ) : LogState := { s with gLogLevel := level }

/-- `kernel_early_init` behind `gdt_setup`. -/
def kernelEarlyInit (k : Console) : Outcome LogState := do
  let u ← serialInit k.uart
  let t ← terminalInitialize k.terminal
  return ⟨⟨t, u⟩, logInfo⟩

/-! ## Calls -/

/-- A call that prints, with the parts of its format. The name of a module comes with its
address. -/
inductive LogCall where
  | setLevel (level : ℕ)
  | printf (items : List FormatItem)
  | puts (string : ℕ) (w : List UInt8)
  | message (kind : LogKind) (logModule : ℕ) (name : List UInt8) (items : List FormatItem)
deriving DecidableEq, Repr

/-- The call. -/
def LogState.call (mem : List UInt8) (s : LogState) : LogCall → Outcome LogState
  | .setLevel level => return logSetLevel s level
  | .printf items => do
    let (_, k) ← Ahos.printf mem s.console (formatBytes items ++ [0]) (formatArgs items)
    return { s with console := k }
  | .puts string _ => do
    let (_, k) ← Ahos.puts mem s.console string
    return { s with console := k }
  | .message kind logModule _ items =>
    logMacro mem s kind logModule (formatBytes items) (formatArgs items)

/-! ## The transcript -/

/-- What a reader of the log sees: the page, the bytes on the serial line, and the level up to
which messages are enabled. -/
structure Transcript where
  page : Page
  sent : List UInt8
  level : ℕ

namespace Transcript

/-- A text in the colour of the page. -/
def print (r : Transcript) (text : List UInt8) : Transcript :=
  { r with page := text.foldl Page.put r.page, sent := r.sent ++ text }

/-- The colour of the page. -/
def setColor (r : Transcript) (color : UInt8) : Transcript :=
  { r with page := { r.page with color := color } }

end Transcript

/-- The text of a message: `[name] `, the prefix, the text of the format and a line feed. -/
def messageText (kind : LogKind) (name : List UInt8) (items : List FormatItem) : List UInt8 :=
  ascii "[" ++ name ++ ascii "] " ++ kind.prefixe ++ formatText items ++ ascii "\n"

/-- The call, on the transcript. -/
def Transcript.call (r : Transcript) : LogCall → Transcript
  | .setLevel level => { r with level := level }
  | .printf items => r.print (formatText items)
  | .puts _ w => r.print (w ++ ascii "\n")
  | .message kind _ name items =>
    let r := r.setColor kind.color
    let r := if kind.level ≤ r.level then r.print (messageText kind name items) else r
    r.setColor 0x0f

/-- The text that the call prints at a level. -/
def LogCall.text (level : ℕ) : LogCall → List UInt8
  | .setLevel _ => []
  | .printf items => formatText items
  | .puts _ w => w ++ ascii "\n"
  | .message kind _ name items =>
    if kind.level ≤ level then messageText kind name items else []

/-- The formats and the strings of the call are well-formed, which is up to its caller. No format
has a `%n`, which would store into the memory of the strings. -/
def LogCall.Valid (mem : List UInt8) : LogCall → Prop
  | .setLevel _ => True
  | .printf items => (∀ item ∈ items, item.Valid mem) ∧ formatStores 0 items = []
  | .puts string w => (Conversion.string string w).Valid mem
  | .message _ logModule name items =>
    (Conversion.string logModule name).Valid mem ∧ (∀ item ∈ items, item.Valid mem) ∧
      formatStores 0 items = []

/-- Every call prints fewer characters than the buffer of `printf` holds. -/
def Transcript.Fits (r : Transcript) : List LogCall → Prop
  | [] => True
  | c :: calls => (c.text r.level).length < printfBuf ∧ (r.call c).Fits calls

/-- The transcript of the start: an empty page in front of what the port has sent. -/
def Transcript.start (sent : List UInt8) : Transcript := ⟨.start, sent, logInfo⟩

/-! ## Formats of the messages -/

theorem formatBytes_append (items items' : List FormatItem) :
    formatBytes (items ++ items') = formatBytes items ++ formatBytes items' :=
  List.flatMap_append ..

theorem formatArgs_append (items items' : List FormatItem) :
    formatArgs (items ++ items') = formatArgs items ++ formatArgs items' :=
  List.flatMap_append ..

theorem formatText_append (items items' : List FormatItem) :
    formatText (items ++ items') = formatText items ++ formatText items' :=
  List.flatMap_append ..

/-- The text has no NUL and no `%`. -/
def PlainText (text : List UInt8) : Prop := ∀ c ∈ text, c ≠ 0 ∧ c ≠ 0x25

instance (text : List UInt8) : Decidable (PlainText text) := List.decidableBAll _ text

/-- Characters that stand for themselves. -/
def literals (text : List UInt8) : List FormatItem := text.map .literal

theorem formatBytes_literals (text : List UInt8) : formatBytes (literals text) = text := by
  simp [formatBytes, literals, List.flatMap_map, FormatItem.bytes]

theorem formatArgs_literals (text : List UInt8) : formatArgs (literals text) = [] := by
  simp [formatArgs, literals, List.flatMap_map, FormatItem.args]

theorem formatText_literals (text : List UInt8) : formatText (literals text) = text := by
  simp [formatText, literals, List.flatMap_map, FormatItem.text]

/-- `%s`. -/
def stringItem (arg : ℕ) (w : List UInt8) : FormatItem :=
  .directive ⟨[], none, none, none, .string arg w⟩

theorem stringItem_text (arg : ℕ) (w : List UInt8) : (stringItem arg w).text = w := by
  simp [stringItem, FormatItem.text, Directive.text, Conversion.text, Directive.fieldWidth,
    Directive.fieldPrecision, padSpaces, padText]

theorem stringItem_valid {mem : List UInt8} {arg : ℕ} {w : List UInt8}
    (h : (Conversion.string arg w).Valid mem) : (stringItem arg w).Valid mem :=
  ⟨nofun, nofun, h⟩

/-- The format of a message, as its parts. -/
def messageItems (kind : LogKind) (logModule : ℕ) (name : List UInt8) (items : List FormatItem) :
    List FormatItem :=
  literals (ascii "[") ++ [stringItem logModule name] ++ literals (ascii "] " ++ kind.prefixe) ++
    items ++ literals (ascii "\n")

section Message

variable (kind : LogKind) (logModule : ℕ) (name : List UInt8) (items : List FormatItem)

theorem messageItems_bytes :
    formatBytes (messageItems kind logModule name items) ++ [0] =
      logFormat kind (formatBytes items) := by
  have hstring : formatBytes [stringItem logModule name] = ascii "%s" := rfl
  have hopen : ascii "[%s] " = ascii "[" ++ ascii "%s" ++ ascii "] " := rfl
  rw [messageItems, formatBytes_append, formatBytes_append, formatBytes_append,
    formatBytes_append, formatBytes_literals, formatBytes_literals, formatBytes_literals, hstring]
  simp only [logFormat, hopen, List.append_assoc]

theorem messageItems_args :
    formatArgs (messageItems kind logModule name items) = logModule :: formatArgs items := by
  have hstring : formatArgs [stringItem logModule name] = [logModule] := rfl
  simp only [messageItems, formatArgs_append, formatArgs_literals, hstring, List.append_nil,
    List.cons_append, List.nil_append]

theorem messageItems_text :
    formatText (messageItems kind logModule name items) = messageText kind name items := by
  have hstring : formatText [stringItem logModule name] = name := by
    simp [formatText, stringItem_text]
  simp only [messageItems, formatText_append, formatText_literals, hstring, messageText,
    List.append_assoc]

variable {kind logModule name items}

theorem literals_valid {mem text : List UInt8} (h : PlainText text) :
    ∀ item ∈ literals text, item.Valid mem := by
  intro item hitem
  obtain ⟨c, hc, rfl⟩ := List.mem_map.mp hitem
  exact h c hc

theorem messageItems_valid {mem : List UInt8} (hname : (Conversion.string logModule name).Valid mem)
    (hitems : ∀ item ∈ items, item.Valid mem) :
    ∀ item ∈ messageItems kind logModule name items, item.Valid mem := by
  have hprefixe : PlainText (ascii "] " ++ kind.prefixe) := by
    cases kind <;> decide
  intro item hitem
  simp only [messageItems, List.mem_append, List.mem_singleton] at hitem
  obtain (((hitem | rfl) | hitem) | hitem) | hitem := hitem
  · exact literals_valid (by decide) item hitem
  · exact stringItem_valid hname
  · exact literals_valid hprefixe item hitem
  · exact hitems item hitem
  · exact literals_valid (by decide) item hitem

end Message

/-! ## Calls and runs -/

/-- The log has printed the transcript. -/
structure LogState.Follows (s : LogState) (r : Transcript) : Prop where
  console : s.console.Shows r.page r.sent
  level : s.gLogLevel = r.level

theorem LogState.Follows.setColor {s : LogState} {r : Transcript} (h : s.Follows r)
    (color : UInt8) : (s.onTerminal (terminalSetcolor · color)).Follows (r.setColor color) := by
  obtain ⟨t, hcall, hshows, hcursor⟩ :=
    Terminal.call_spec h.console.terminal h.console.cursor (.setcolor color)
  obtain rfl := Except.ok.inj hcall
  exact ⟨⟨hshows, hcursor, h.console.uart, h.console.sent⟩, h.level⟩

theorem LogState.Follows.resetColor {s : LogState} {r : Transcript} (h : s.Follows r) :
    (s.onTerminal terminalResetColor).Follows (r.setColor 0x0f) := by
  obtain ⟨t, hcall, hshows, hcursor⟩ :=
    Terminal.call_spec h.console.terminal h.console.cursor .resetColor
  obtain rfl := Except.ok.inj hcall
  exact ⟨⟨hshows, hcursor, h.console.uart, h.console.sent⟩, h.level⟩

section Runs

variable {mem : List UInt8} {s : LogState} {r : Transcript}

/-- `puts` is a message of two parts. -/
def putsItems (string : ℕ) (w : List UInt8) : List FormatItem :=
  [stringItem string w, .literal 0x0a]

theorem puts_eq (mem : List UInt8) (k : Console) (string : ℕ) (w : List UInt8) :
    puts mem k string = printf mem k (formatBytes (putsItems string w) ++ [0])
      (formatArgs (putsItems string w)) := rfl

theorem putsItems_text (string : ℕ) (w : List UInt8) :
    formatText (putsItems string w) = w ++ ascii "\n" := by
  rw [formatText, putsItems, List.flatMap_cons, stringItem_text]
  rfl

theorem putsItems_valid {string : ℕ} {w : List UInt8} (h : (Conversion.string string w).Valid mem) :
    ∀ item ∈ putsItems string w, item.Valid mem := by
  intro item hitem
  obtain rfl | hitem := List.mem_cons.mp hitem
  · exact stringItem_valid h
  · obtain rfl := List.mem_singleton.mp hitem
    exact ⟨by decide, by decide⟩

/-- A message calls `printf` with its parts. -/
theorem logMacroDef_eq (mem : List UInt8) (s : LogState) {kind : LogKind} (logModule : ℕ)
    (name : List UInt8) (items : List FormatItem) (hlevel : kind.level ≤ s.gLogLevel) :
    logMacroDef mem s kind logModule (formatBytes items) (formatArgs items) =
      printf mem s.console (formatBytes (messageItems kind logModule name items) ++ [0])
          (formatArgs (messageItems kind logModule name items)) >>=
        fun r => .ok { s with console := r.2 } := by
  rw [messageItems_bytes, messageItems_args, logMacroDef, if_pos hlevel]
  rfl

/-- A message is printed if its level is enabled. -/
theorem logMacroDef_follows (h : s.Follows r) {kind : LogKind} {logModule : ℕ}
    {name : List UInt8} {items : List FormatItem}
    (hvalid : LogCall.Valid mem (.message kind logModule name items))
    (hfits : (LogCall.text r.level (.message kind logModule name items)).length < printfBuf) :
    ∃ s', logMacroDef mem s kind logModule (formatBytes items) (formatArgs items) = .ok s' ∧
      s'.Follows (if kind.level ≤ r.level then r.print (messageText kind name items) else r) := by
  rw [LogCall.text] at hfits
  by_cases hlevel : kind.level ≤ r.level
  · rw [if_pos hlevel, ← messageItems_text kind logModule name items] at hfits
    obtain ⟨k, hprintf, hshows⟩ :=
      printf_spec h.console (messageItems_valid hvalid.1 hvalid.2.1) hfits [] []
    rw [List.append_nil] at hprintf
    rw [messageItems_text] at hshows
    refine ⟨{ s with console := k }, ?_, ?_⟩
    · rw [logMacroDef_eq mem s logModule name items (h.level ▸ hlevel), hprintf]
      rfl
    · rw [if_pos hlevel]
      exact ⟨hshows, h.level⟩
  · refine ⟨s, ?_, by rwa [if_neg hlevel]⟩
    rw [logMacroDef, if_neg (h.level ▸ hlevel)]
    rfl

/-- **A call does what its transcript says**, if its text fits into the buffer of `printf`. -/
theorem LogState.call_follows (h : s.Follows r) {c : LogCall} (hvalid : c.Valid mem)
    (hfits : (c.text r.level).length < printfBuf) :
    ∃ s', s.call mem c = .ok s' ∧ s'.Follows (r.call c) := by
  cases c with
  | setLevel level => exact ⟨_, rfl, h.console, rfl⟩
  | printf items =>
    obtain ⟨k, hprintf, hshows⟩ := printf_spec h.console hvalid.1 hfits [] []
    rw [List.append_nil] at hprintf
    exact ⟨{ s with console := k }, by rw [LogState.call, hprintf]; rfl, hshows, h.level⟩
  | puts string w =>
    rw [LogCall.text, ← putsItems_text string w] at hfits
    obtain ⟨k, hprintf, hshows⟩ := printf_spec h.console (putsItems_valid hvalid) hfits [] []
    rw [List.append_nil, ← puts_eq] at hprintf
    rw [putsItems_text] at hshows
    exact ⟨{ s with console := k }, by rw [LogState.call, hprintf]; rfl, hshows, h.level⟩
  | message kind logModule name items =>
    obtain ⟨s', hprint, hs'⟩ := logMacroDef_follows (h.setColor kind.color) hvalid hfits
    exact ⟨s'.onTerminal terminalResetColor, by rw [LogState.call, logMacro, hprint]; rfl,
      hs'.resetColor⟩

/-- A text that does not fit overruns the buffer. -/
theorem LogState.call_overruns (h : s.Follows r) {c : LogCall} (hvalid : c.Valid mem)
    (hlong : printfBuf ≤ (c.text r.level).length) : s.call mem c = .error .outOfBounds := by
  cases c with
  | setLevel level => exact absurd hlong (by simp [LogCall.text, printfBuf])
  | printf items =>
    have hprintf := printf_overruns s.console hvalid.1 hlong [] []
    rw [List.append_nil] at hprintf
    rw [LogState.call, hprintf]
    rfl
  | puts string w =>
    rw [LogCall.text, ← putsItems_text string w] at hlong
    have hprintf := printf_overruns s.console (putsItems_valid hvalid) hlong [] []
    rw [List.append_nil, ← puts_eq] at hprintf
    rw [LogState.call, hprintf]
    rfl
  | message kind logModule name items =>
    rw [LogCall.text] at hlong
    by_cases hlevel : kind.level ≤ r.level
    · rw [if_pos hlevel, ← messageItems_text kind logModule name items] at hlong
      have hprintf := printf_overruns (s.onTerminal (terminalSetcolor · kind.color)).console
        (messageItems_valid hvalid.1 hvalid.2.1) hlong [] []
      rw [List.append_nil] at hprintf
      rw [LogState.call, logMacro]
      rw [logMacroDef_eq mem _ logModule name items (h.level ▸ hlevel), hprintf]
      rfl
    · rw [if_neg hlevel] at hlong
      exact absurd hlong (by decide)

/-- The log of any run of calls. -/
theorem LogState.run_follows (h : s.Follows r) {calls : List LogCall}
    (hvalid : ∀ c ∈ calls, c.Valid mem) :
    (r.Fits calls → ∃ s', Run.run (LogState.call mem) s calls = .ok s' ∧
      s'.Follows (calls.foldl Transcript.call r)) ∧
    (¬r.Fits calls → Run.run (LogState.call mem) s calls = .error .outOfBounds) := by
  induction calls generalizing s r with
  | nil => exact ⟨fun _ => ⟨s, rfl, h⟩, fun hno => absurd trivial hno⟩
  | cons c calls ih =>
    have hc := hvalid c List.mem_cons_self
    rw [Run.run_cons, Transcript.Fits]
    by_cases hfits : (c.text r.level).length < printfBuf
    · obtain ⟨s₁, hcall, h₁⟩ := LogState.call_follows h hc hfits
      obtain ⟨hrun, hover⟩ := ih h₁ fun b hb => hvalid b (List.mem_cons_of_mem _ hb)
      rw [hcall, Run.ok_bind]
      exact ⟨fun hall => hrun hall.2, fun hno => hover fun hrest => hno ⟨hfits, hrest⟩⟩
    · rw [LogState.call_overruns h hc (by omega), Run.error_bind]
      exact ⟨fun hall => absurd hall.1 hfits, fun _ => rfl⟩

end Runs

theorem kernelEarlyInit_follows (k : Console) :
    ∃ s, kernelEarlyInit k = .ok s ∧ s.Follows (.start k.uart.sent) := by
  obtain ⟨u, hserial, hready, hsent⟩ := serialInit_spec k.uart
  obtain ⟨t, hinit, hshows, hcursor⟩ := terminalInitialize_spec k.terminal
  refine ⟨⟨⟨t, u⟩, logInfo⟩, ?_, ⟨hshows, hcursor, hready, hsent⟩, rfl⟩
  rw [kernelEarlyInit, hserial, Run.ok_bind, hinit]
  rfl

/-- **The log is what its calls say.** From the start of the kernel on, whatever state the devices
are in, every run of calls with well-formed formats whose texts have fewer than 1024 characters
leaves the transcript of the calls on the screen and on the serial line; a longer text overruns the
buffer of `printf`. -/
theorem kernel_log_follows (mem : List UInt8) (k : Console) (calls : List LogCall)
    (hvalid : ∀ c ∈ calls, c.Valid mem) :
    ((Transcript.start k.uart.sent).Fits calls →
      ∃ s, (kernelEarlyInit k >>= fun s => Run.run (LogState.call mem) s calls) = .ok s ∧
        s.Follows (calls.foldl Transcript.call (.start k.uart.sent))) ∧
    (¬(Transcript.start k.uart.sent).Fits calls →
      (kernelEarlyInit k >>= fun s => Run.run (LogState.call mem) s calls) =
        .error .outOfBounds) := by
  obtain ⟨s, hinit, hfollows⟩ := kernelEarlyInit_follows k
  rw [hinit]
  exact LogState.run_follows hfollows hvalid

/-- `warn("%#x", 255)` in a module `a`: `[a] WARN: 0xff`. The message behind it is not enabled. -/
theorem kernel_log_follows_warn :
    ∃ s, (kernelEarlyInit ⟨⟨0, 0, 0, 0, fun _ => 0, 0, 0⟩, ⟨0, 0, 0, 0, 0, []⟩⟩ >>= fun s =>
        Run.run (LogState.call [0x61, 0]) s
          [.message .warn 0 [0x61]
            [.directive ⟨[.special], none, none, none, .integer .lowerHex 255⟩],
          .message .dbg 0 [0x61] []]) = .ok s ∧
      s.console.uart.sent = ascii "[a] WARN: 0xff\n" := by
  have hname : (Conversion.string 0 [0x61]).Valid [0x61, 0] := ⟨⟨[], rfl⟩, by decide, by decide⟩
  have hhex : (⟨[.special], none, none, none, .integer .lowerHex 255⟩ : Directive).Valid
      [0x61, 0] := ⟨nofun, nofun, by simp [Conversion.Valid, Conversion.args]⟩
  obtain ⟨s, hrun, hs⟩ := (kernel_log_follows [0x61, 0]
    ⟨⟨0, 0, 0, 0, fun _ => 0, 0, 0⟩, ⟨0, 0, 0, 0, 0, []⟩⟩
    [.message .warn 0 [0x61] [.directive ⟨[.special], none, none, none, .integer .lowerHex 255⟩],
      .message .dbg 0 [0x61] []]
    (by simpa [LogCall.Valid, FormatItem.Valid] using ⟨⟨hname, hhex, rfl⟩, hname, rfl⟩)).1
    ⟨by decide, by decide, trivial⟩
  exact ⟨s, hrun, hs.console.sent.trans (by decide)⟩

end Ahos
