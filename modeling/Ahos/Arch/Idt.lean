import Ahos.Mem.Memory
import Mathlib.Data.List.Basic

/-!
# The interrupt descriptor table

`setup_idt` and the dispatch of `isr_handler`, with what the CPU makes of an entry of the table.
The addresses of the wrappers `isr0` to `isr47` are those that the linker has chosen.
-/

namespace Ahos

/-! ## Entries -/

/-- `struct idt_entry`: four half-words. -/
structure IdtEntry where
  offsetLo : ℕ
  segmentSelector : ℕ
  flags : ℕ
  offsetHi : ℕ
deriving DecidableEq, Repr

/-- `int_gate`. -/
def intGate (isrPtr : ℕ) : IdtEntry :=
  ⟨isrPtr &&& 0xffff, 0x08, 0b1000111000000000, (isrPtr >>> 16) &&& 0xffff⟩

/-- `empty_gate`. -/
def emptyGate : IdtEntry := ⟨0, 0, 0, 0⟩

/-- Where an entry leads to. -/
structure Gate where
  selector : ℕ
  offset : ℕ
  /-- An interrupt gate clears the interrupt flag, a trap gate does not. -/
  clearsIf : Bool
deriving DecidableEq, Repr

/-- What the CPU makes of an entry: the present bit and the type of a 32-bit gate. -/
def IdtEntry.decode (e : IdtEntry) : Option Gate :=
  if e.flags.testBit 15 then
    if e.flags / 256 % 32 = 0b01110 then
      some ⟨e.segmentSelector, 65536 * e.offsetHi + e.offsetLo, true⟩
    else if e.flags / 256 % 32 = 0b01111 then
      some ⟨e.segmentSelector, 65536 * e.offsetHi + e.offsetLo, false⟩
    else none
  else none

theorem decode_intGate {isrPtr : ℕ} (h : isrPtr < 4294967296) :
    (intGate isrPtr).decode = some ⟨0x08, isrPtr, true⟩ := by
  have hlo : isrPtr &&& 0xffff = isrPtr % 65536 := Word32.and_low isrPtr 16
  have hhi : (isrPtr >>> 16) &&& 0xffff = isrPtr / 65536 % 65536 := by
    rw [Nat.shiftRight_eq_div_pow]
    exact Word32.and_low _ 16
  have hoffset : 65536 * (isrPtr / 65536 % 65536) + isrPtr % 65536 = isrPtr := by omega
  simp only [IdtEntry.decode, intGate, hlo, hhi, hoffset]
  rfl

theorem decode_emptyGate : emptyGate.decode = none := by decide

/-! ## The table -/

/-- The addresses of the wrappers. -/
structure IsrLabels where
  addr : ℕ → ℕ
  addr_lt : ∀ i, addr i < 4294967296
  addr_inj : ∀ i < 48, ∀ j < 48, addr i = addr j → i = j

/-- `setup_idt`: the entries of `idt`. -/
def setupIdt (isr : IsrLabels) : List IdtEntry :=
  (List.range 48).foldl (fun idt i => idt.set i (intGate (isr.addr i)))
    (List.replicate 256 emptyGate)

section Table

variable (f : ℕ → IdtEntry) (is : List ℕ) (idt : List IdtEntry)

theorem length_foldl_set :
    (is.foldl (fun idt i => idt.set i (f i)) idt).length = idt.length := by
  induction is generalizing idt with
  | nil => rfl
  | cons i is ih => rw [List.foldl_cons, ih, List.length_set]

/-- A loop that fills the entries of some indices. -/
theorem foldl_set_getElem? {v : ℕ} (hv : v < idt.length) :
    (is.foldl (fun idt i => idt.set i (f i)) idt)[v]? =
      if v ∈ is then some (f v) else idt[v]? := by
  induction is generalizing idt with
  | nil => simp
  | cons i is ih =>
    rw [List.foldl_cons, ih (idt.set i (f i)) (by rwa [List.length_set]), List.getElem?_set]
    by_cases hmem : v ∈ is
    · simp [hmem]
    · by_cases hi : i = v
      · simp [hi, hv]
      · simp [hmem, hi, Ne.symm hi]

end Table

theorem length_setupIdt (isr : IsrLabels) : (setupIdt isr).length = 256 := by
  rw [setupIdt, length_foldl_set, List.length_replicate]

/-- **The entry of a vector** leads to its wrapper, with interrupts off; the vectors without a
wrapper have no gate. -/
theorem setupIdt_gate (isr : IsrLabels) (v : ℕ) :
    (setupIdt isr)[v]?.bind IdtEntry.decode =
      if v < 48 then some ⟨0x08, isr.addr v, true⟩ else none := by
  by_cases hv : v < 256
  · rw [setupIdt, foldl_set_getElem? _ _ _ (by rwa [List.length_replicate])]
    simp only [List.mem_range]
    split_ifs with h48
    · exact decode_intGate (isr.addr_lt v)
    · rw [List.getElem?_replicate_of_lt hv]
      exact decode_emptyGate
  · rw [List.getElem?_eq_none (by rw [length_setupIdt]; omega), if_neg (by omega)]
    rfl

/-! ## The dispatch -/

/-- What `isr_handler` calls. -/
inductive IsrHandler where
  | divideError
  | invalidOpcode
  | doubleFault
  | generalProtectionFault
  | pageFault (errorCode : ℕ)
  | clockIrq
  | ps2ctrlIrq1
  | userDefinedInterrupt
  | ps2ctrlIrq12
  | unhandledInterrupt
deriving DecidableEq, Repr

/-- The `switch` of `isr_handler`, for `struct interrupt_stack`. -/
def isrHandler (isrNum errorCode : ℕ) : IsrHandler :=
  match isrNum with
  | 0 => .divideError
  | 6 => .invalidOpcode
  | 8 => .doubleFault
  | 13 => .generalProtectionFault
  | 14 => .pageFault errorCode
  | 32 => .clockIrq
  | 33 => .ps2ctrlIrq1
  | 34 => .userDefinedInterrupt
  | 44 => .ps2ctrlIrq12
  | _ => .unhandledInterrupt

end Ahos
