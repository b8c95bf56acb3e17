import Ahos.Lib.Run
import Ahos.Lib.Word

/-!
# Pages and outcomes

The page macros of `memory.h` and the outcome of a piece of kernel code. An
address is a natural number below `2 ^ 32`, and `PAGE_SIZE` is `4096`. Code that
calls `panic` does not return: its outcome is the panic message. The model also
makes visible what C leaves without a diagnosis: an index outside an array, a
virtual address without a translation, and a loop without an end.
-/

namespace Ahos

/-- The ways in which kernel code does not return. -/
inductive Halt where
  /-- `panic(msg)`. -/
  | panic (msg : String)
  /-- An array access outside the array. -/
  | outOfBounds
  /-- An access to a virtual address that the page tables do not translate. -/
  | pageFault (addr : ℕ)
  /-- A loop that does not end. -/
  | loops
deriving DecidableEq, Repr

/-- What a piece of kernel code returns, unless it halts. -/
abbrev Outcome := Except Halt

/-- `panic` never returns. -/
def panic {α : Type} (msg : String) : Outcome α := .error (.panic msg)

/-- The message of `NOT_IMPLEMENTED`. -/
def notImplemented : String := "NOT IMPLEMENTED [%s:%d]"

/-- Reading a cell of an array. -/
def readCell {α : Type} (cells : List α) (i : ℕ) : Outcome α :=
  match cells[i]? with
  | some c => .ok c
  | none => .error .outOfBounds

theorem readCell_eq_ok {α : Type} {cells : List α} {i : ℕ} {c : α} :
    readCell cells i = .ok c ↔ cells[i]? = some c := by
  unfold readCell
  cases cells[i]? <;> simp

/-- Writing a cell of an array. -/
def writeCell {α : Type} (cells : List α) (i : ℕ) (a : α) : Outcome (List α) :=
  if i < cells.length then .ok (cells.set i a) else .error .outOfBounds

theorem writeCell_ok {α : Type} {cells cells' : List α} {i : ℕ} {a : α}
    (h : writeCell cells i a = .ok cells') : i < cells.length ∧ cells' = cells.set i a := by
  unfold writeCell at h
  split_ifs at h with hi
  exact ⟨hi, (Except.ok.inj h).symm⟩

/-- How a piece of code ends that changes a state: it returns, or it halts, each time with the state
of that moment. -/
inductive Ending (σ : Type) where
  | returns (s : σ)
  | halts (why : Halt) (s : σ)
deriving DecidableEq, Repr

/-- The outcome of the code, which forgets the state in which it halts. -/
def Ending.outcome {σ : Type} : Ending σ → Outcome σ
  | returns s => .ok s
  | halts why _ => .error why

theorem Ending.outcome_eq_ok {σ : Type} {x : Ending σ} {s : σ} :
    x.outcome = .ok s ↔ x = .returns s := by
  cases x <;> simp [outcome]

/-- `BAD_PAGE`. -/
def badPage : ℕ := 0

/-- `PAGE_OFFSET`: the low twelve bits. -/
def pageOffset (x : ℕ) : ℕ := x &&& 0xfff

/-- `addr & PAGE_MASK`: the address of the page that holds `addr`. -/
def pageMask (x : ℕ) : ℕ := x &&& 0xfffff000

/-- `page_align`: the next page-aligned address, in 32 bits. -/
def pageAlign (addr : ℕ) : ℕ :=
  if pageOffset addr ≠ 0 then pageMask (Word32.add addr 4096) else addr

@[simp] theorem pageOffset_eq (x : ℕ) : pageOffset x = x % 4096 := Word32.and_low x 12

theorem pageMask_eq {x : ℕ} (h : x < 4294967296) : pageMask x = 4096 * (x / 4096) :=
  Word32.and_high (k := 12) (m := 20) h

/-- Away from the top of the address space `pageAlign` rounds up to a multiple of a page. -/
theorem pageAlign_eq {x : ℕ} (h : x ≤ 4294963200) :
    pageAlign x = 4096 * ((x + 4095) / 4096) := by
  unfold pageAlign
  rw [pageOffset_eq]
  split
  · by_cases hx : x = 4294963200
    · omega
    · rw [Word32.add_of_lt (by omega), pageMask_eq (by omega)]
      omega
  · omega

theorem pageAlign_mod (x : ℕ) : pageAlign x % 4096 = 0 := by
  unfold pageAlign
  rw [pageOffset_eq]
  split
  · rw [pageMask_eq (Word32.add_lt _ _)]
    omega
  · omega

end Ahos
