import Ahos.Drivers.Serial
import Ahos.Drivers.Terminal
import Ahos.Libc.Printf.Vsprintf

/-!
# Printing

`putchar`, `printf` and `puts` of the kernel: a character goes to the terminal and to the serial
port. `printf` formats into a buffer of 1024 bytes on its stack and does not ask how long the text
will be, so that a longer one overruns the buffer.
-/

namespace Ahos

/-- The two places where a character goes to. -/
structure Console where
  terminal : Terminal
  uart : Uart

/-- `putchar`, but for the value that it returns, which is its argument. -/
def putchar (k : Console) (c : UInt8) : Outcome Console := do
  let t ← terminalWrite k.terminal [c]
  return ⟨t, serialWrite k.uart [c]⟩

/-- The size of `printf_buf`. -/
def printfBuf : ℕ := 1024

/-- `printf`: the number of characters, and the console behind them. -/
def printf (mem : List UInt8) (k : Console) (fmt : List UInt8) (args : List ℕ) :
    Outcome (ℕ × Console) := do
  let printed ← vsprintf mem printfBuf fmt args
  let k ← printed.out.foldlM putchar k
  return (printed.out.length, k)

/-- `puts`: `printf("%s\\n", string)`. -/
def puts (mem : List UInt8) (k : Console) (string : ℕ) : Outcome (ℕ × Console) :=
  printf mem k (ascii "%s\n" ++ [0]) [string]

/-! ## Specifications -/

/-- The terminal shows the page, and the serial port has sent the bytes. -/
structure Console.Shows (k : Console) (p : Page) (sent : List UInt8) : Prop where
  terminal : Ahos.Shows k.terminal p
  cursor : k.terminal.CursorShown
  uart : k.uart.Ready
  sent : k.uart.sent = sent

section Console

variable {k : Console} {p : Page} {sent : List UInt8}

theorem putchar_spec (h : k.Shows p sent) (c : UInt8) :
    ∃ k', putchar k c = .ok k' ∧ k'.Shows (p.put c) (sent ++ [c]) := by
  obtain ⟨t, hwrite, hshows, hcursor⟩ := Terminal.call_spec h.terminal h.cursor (.write [c])
  refine ⟨⟨t, serialWrite k.uart [c]⟩, ?_, hshows, hcursor, ?_, ?_⟩
  · rw [putchar, show terminalWrite k.terminal [c] = .ok t from hwrite]
    rfl
  · rw [serialWrite_spec h.uart]
    exact ⟨h.uart.dlab, h.uart.protocol, h.uart.divisor⟩
  · rw [serialWrite_spec h.uart, h.sent]

theorem foldlM_putchar_spec (h : k.Shows p sent) (text : List UInt8) :
    ∃ k', text.foldlM putchar k = .ok k' ∧ k'.Shows (text.foldl Page.put p) (sent ++ text) := by
  induction text generalizing k p sent with
  | nil => exact ⟨k, rfl, by simpa using h⟩
  | cons c text ih =>
    obtain ⟨k₁, hput, h₁⟩ := putchar_spec h c
    obtain ⟨k₂, hrest, h₂⟩ := ih h₁
    refine ⟨k₂, by rw [List.foldlM_cons, hput, Run.ok_bind, hrest], ?_⟩
    rwa [List.append_assoc] at h₂

variable {mem : List UInt8} {items : List FormatItem}

/-- **`printf` prints the text of its format** on the terminal and on the serial port, when it has
fewer than 1024 characters. -/
theorem printf_spec (h : k.Shows p sent) (hvalid : ∀ item ∈ items, item.Valid mem)
    (hfits : (formatText items).length < printfBuf) (post : List UInt8) (args : List ℕ) :
    ∃ k', printf mem k (formatBytes items ++ 0 :: post) (formatArgs items ++ args) =
        .ok ((formatText items).length, k') ∧
      k'.Shows ((formatText items).foldl Page.put p) (sent ++ formatText items) := by
  obtain ⟨k', hput, hshows⟩ := foldlM_putchar_spec h (formatText items)
  refine ⟨k', ?_, hshows⟩
  rw [printf, vsprintf_writes hvalid, if_pos hfits, Run.ok_bind, hput]
  rfl

/-- A longer text overruns the buffer. -/
theorem printf_overruns (k : Console) (hvalid : ∀ item ∈ items, item.Valid mem)
    (hlong : printfBuf ≤ (formatText items).length) (post : List UInt8) (args : List ℕ) :
    printf mem k (formatBytes items ++ 0 :: post) (formatArgs items ++ args) =
      .error .outOfBounds := by
  rw [printf, vsprintf_writes hvalid, if_neg (by omega), Run.error_bind]

end Console

end Ahos
