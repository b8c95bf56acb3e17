import Ahos.Arch.Idt
import Ahos.Lib.Run

/-!
# The stack of the kernel

How the kernel stack of `boot.S` grows and shrinks: the calls of C functions, which keep a frame
pointer, the delivery of interrupts by the CPU and the code of `isr_wrapper.S`. The memory is that
of the words, by their addresses, and a push below the bottom of the stack halts.

The activations are the history of the stack: the calls and the interrupts that have not returned,
with the registers from before them.
-/

namespace Ahos

/-! ## The machine -/

/-- The registers. -/
structure Regs where
  eax : ℕ
  ecx : ℕ
  edx : ℕ
  ebx : ℕ
  esp : ℕ
  ebp : ℕ
  esi : ℕ
  edi : ℕ
  eip : ℕ
  cs : ℕ
  eflags : ℕ
deriving DecidableEq, Repr

/-- The registers and the memory. -/
structure Cpu where
  r : Regs
  mem : ℕ → ℕ

/-- What the linker has put where. -/
structure KernelLayout where
  isr : IsrLabels
  /-- The address of `isr_handler`. -/
  isrHandler : ℕ
  /-- The code of `isr_common_stub`: its first address and its length. -/
  stub : ℕ
  stubLen : ℕ
  /-- The return address of the call in `isr_common_stub`. -/
  stubRet : ℕ
  stubRet_mem : stub ≤ stubRet ∧ stubRet < stub + stubLen
  stub_pos : 0 < stub
  stub_lt : stub + stubLen < 4294967296
  /-- `stack_bottom`. -/
  stackBottom : ℕ
  stackBottom_pos : 0 < stackBottom
  stackBottom_le : stackBottom + 16384 ≤ 4294967296

namespace KernelLayout

/-- `stack_top`. -/
def stackTop (img : KernelLayout) : ℕ := img.stackBottom + 16384

/-- The address lies in `isr_common_stub`. -/
def InStub (img : KernelLayout) (eip : ℕ) : Prop := img.stub ≤ eip ∧ eip < img.stub + img.stubLen

instance (img : KernelLayout) (eip : ℕ) : Decidable (img.InStub eip) :=
  inferInstanceAs (Decidable (_ ∧ _))

end KernelLayout

/-- `push`. -/
def push (img : KernelLayout) (c : Cpu) (v : ℕ) : Outcome Cpu :=
  if img.stackBottom + 4 ≤ c.r.esp then
    .ok ⟨{ c.r with esp := c.r.esp - 4 }, Function.update c.mem (c.r.esp - 4) v⟩
  else .error .outOfBounds

/-- Some values, from the first to the last. -/
def pushAll (img : KernelLayout) (vs : List ℕ) (c : Cpu) : Outcome Cpu := vs.foldlM (push img) c

/-- `pop`: the value, and the machine behind it. -/
def pop (c : Cpu) : ℕ × Cpu := (c.mem c.r.esp, { c with r := { c.r with esp := c.r.esp + 4 } })

/-- `add $n, %esp`. -/
def addEsp (c : Cpu) (n : ℕ) : Cpu := { c with r := { c.r with esp := c.r.esp + n } }

/-! ## Calls -/

/-- The call of a C function: `call`, and the prologue of the function with the words of its local
variables. -/
def callFunction (img : KernelLayout) (ret target locals : ℕ) (c : Cpu) : Outcome Cpu := do
  let c ← pushAll img [ret] c
  let c := { c with r := { c.r with eip := target } }
  let c ← pushAll img [c.r.ebp] c
  let c := { c with r := { c.r with ebp := c.r.esp } }
  if img.stackBottom + 4 * locals ≤ c.r.esp then
    return { c with r := { c.r with esp := c.r.esp - 4 * locals } }
  else .error .outOfBounds

/-- The end of a C function: `leave` and `ret`. -/
def leaveRet (c : Cpu) : Cpu :=
  let c := { c with r := { c.r with esp := c.r.ebp } }
  let (ebp, c) := pop c
  let c := { c with r := { c.r with ebp := ebp } }
  let (eip, c) := pop c
  { c with r := { c.r with eip := eip } }

/-! ## Interrupts -/

/-- The exceptions for which the CPU pushes an error code. -/
def hasErrorCode (vector : ℕ) : Prop := vector ∈ [8, 10, 11, 12, 13, 14, 17]

instance (vector : ℕ) : Decidable (hasErrorCode vector) := inferInstanceAs (Decidable (_ ∈ _))

/-- The interrupt flag is cleared. -/
def clearIf (eflags : ℕ) : ℕ := if eflags.testBit 9 then eflags - 512 else eflags

/-- The CPU delivers an interrupt through the gate of its vector. A vector without a gate leads to
another exception, which is not modelled. -/
def deliver (img : KernelLayout) (vector errorCode : ℕ) (c : Cpu) : Outcome Cpu :=
  match (setupIdt img.isr)[vector]?.bind IdtEntry.decode with
  | none => .error .outOfBounds
  | some gate => do
    let c ← pushAll img ([c.r.eflags, c.r.cs, c.r.eip] ++
      if hasErrorCode vector then [errorCode] else []) c
    let eflags := if gate.clearsIf then clearIf c.r.eflags else c.r.eflags
    return { c with r := { c.r with eip := gate.offset, cs := gate.selector, eflags := eflags } }

/-- The wrapper at an address. -/
def wrapperAt (img : KernelLayout) (eip : ℕ) : Option ℕ :=
  (List.range 48).find? fun i => img.isr.addr i = eip

/-- The wrappers that `isr_err` defines; the other ones push a dummy error code. -/
def isrErr (isrNum : ℕ) : Prop :=
  isrNum = 8 ∨ isrNum = 10 ∨ isrNum = 11 ∨ isrNum = 12 ∨ isrNum = 13 ∨ isrNum = 14 ∨ isrNum = 17

instance (isrNum : ℕ) : Decidable (isrErr isrNum) := inferInstanceAs (Decidable (_ ∨ _))

/-- A wrapper, up to its jump. -/
def isrWrapper (img : KernelLayout) (isrNum : ℕ) (c : Cpu) : Outcome Cpu :=
  pushAll img ((if isrErr isrNum then [] else [0]) ++ [isrNum]) c

/-- `pushal`. -/
def pushal (img : KernelLayout) (c : Cpu) : Outcome Cpu :=
  pushAll img [c.r.eax, c.r.ecx, c.r.edx, c.r.ebx, c.r.esp, c.r.ebp, c.r.esi, c.r.edi] c

/-- `popal`, which skips the stack pointer. -/
def popal (c : Cpu) : Cpu :=
  let (edi, c) := pop c
  let (esi, c) := pop c
  let (ebp, c) := pop c
  let c := addEsp c 4
  let (ebx, c) := pop c
  let (edx, c) := pop c
  let (ecx, c) := pop c
  let (eax, c) := pop c
  { c with r := { c.r with
    edi := edi, esi := esi, ebp := ebp, ebx := ebx, edx := edx, ecx := ecx, eax := eax } }

/-- `iret`, to the same privilege level. -/
def iret (c : Cpu) : Cpu :=
  let (eip, c) := pop c
  let (cs, c) := pop c
  let (eflags, c) := pop c
  { c with r := { c.r with eip := eip, cs := cs, eflags := eflags } }

/-- `isr_common_stub` up to the body of `isr_handler`. -/
def enterStub (img : KernelLayout) (locals : ℕ) (c : Cpu) : Outcome Cpu := do
  let c ← pushal img c
  let c := { c with r := { c.r with eax := c.r.esp + 0x20 } }
  let c ← pushAll img [c.r.eax] c
  callFunction img img.stubRet img.isrHandler locals c

/-- `isr_common_stub` behind the call. -/
def leaveStub (c : Cpu) : Cpu := iret (addEsp (popal (addEsp c 4)) 8)

/-- An interrupt, up to the body of `isr_handler`. -/
def interrupt (img : KernelLayout) (vector errorCode locals : ℕ) (c : Cpu) : Outcome Cpu := do
  let c ← deliver img vector errorCode c
  match wrapperAt img c.r.eip with
  | none => .error .outOfBounds
  | some isrNum => do
    let c ← isrWrapper img isrNum c
    enterStub img locals c

/-- The way back from `isr_handler` to the interrupted code. -/
def resume (c : Cpu) : Cpu := leaveStub (leaveRet c)

/-! ## Words on the stack -/

/-- The words from an address on. -/
def Words (mem : ℕ → ℕ) : ℕ → List ℕ → Prop
  | _, [] => True
  | a, w :: ws => mem a = w ∧ Words mem (a + 4) ws

theorem Words.append {mem : ℕ → ℕ} {ws ws' : List ℕ} {a : ℕ} :
    Words mem a (ws ++ ws') ↔ Words mem a ws ∧ Words mem (a + 4 * ws.length) ws' := by
  induction ws generalizing a with
  | nil => simp [Words]
  | cons w ws ih =>
    rw [List.cons_append, Words, Words, ih, and_assoc, List.length_cons,
      show a + 4 + 4 * ws.length = a + 4 * (ws.length + 1) by omega]

theorem Words.congr {mem mem' : ℕ → ℕ} {ws : List ℕ} {a : ℕ} (h : Words mem a ws)
    (hmem : ∀ x, a ≤ x → x < a + 4 * ws.length → mem' x = mem x) : Words mem' a ws := by
  induction ws generalizing a with
  | nil => exact trivial
  | cons w ws ih =>
    rw [List.length_cons] at hmem
    exact ⟨(hmem a le_rfl (by omega)).trans h.1,
      ih h.2 fun x hx hlt => hmem x (by omega) (by omega)⟩

/-- From the first machine to the second one the words `ws` have been pushed. Of the registers only
the stack pointer matters. -/
structure Pushed (img : KernelLayout) (c c' : Cpu) (ws : List ℕ) : Prop where
  esp : c'.r.esp + 4 * ws.length = c.r.esp
  room : img.stackBottom ≤ c'.r.esp
  words : Words c'.mem c'.r.esp ws
  frame : ∀ x, c.r.esp ≤ x → c'.mem x = c.mem x

section Pushed

variable {img : KernelLayout} {c c' c'' : Cpu} {ws ws' vs : List ℕ}

theorem Pushed.trans (h : Pushed img c c' ws) (h' : Pushed img c' c'' ws') :
    Pushed img c c'' (ws' ++ ws) := by
  have hesp := h.esp
  have hesp' := h'.esp
  refine ⟨?_, h'.room, ?_, fun x hx => ?_⟩
  · rw [List.length_append]
    omega
  · rw [Words.append]
    refine ⟨h'.words, ?_⟩
    rw [hesp']
    exact h.words.congr fun x hx _ => h'.frame x hx
  · rw [h'.frame x (by omega), h.frame x hx]

/-- **Pushed values** lie on the stack, the last one first, and the memory above is as before. -/
theorem pushAll_pushed (hesp : img.stackBottom ≤ c.r.esp) (h : pushAll img vs c = .ok c') :
    c'.r = { c.r with esp := c'.r.esp } ∧ Pushed img c c' vs.reverse := by
  induction vs generalizing c with
  | nil =>
    obtain rfl := Except.ok.inj h
    exact ⟨rfl, rfl, hesp, trivial, fun _ _ => rfl⟩
  | cons v vs ih =>
    rw [pushAll, List.foldlM_cons, Run.bind_eq_ok] at h
    obtain ⟨d, hpush, hrest⟩ := h
    unfold push at hpush
    split_ifs at hpush with hroom
    obtain rfl := Except.ok.inj hpush
    have hfirst : Pushed img c
        ⟨{ c.r with esp := c.r.esp - 4 }, Function.update c.mem (c.r.esp - 4) v⟩ [v] := by
      refine ⟨?_, ?_, ⟨Function.update_self .., trivial⟩, fun x hx => ?_⟩
      · simp only [List.length_singleton]
        omega
      · simp only
        omega
      · exact Function.update_of_ne (by omega) _ _
    obtain ⟨hr, hpushed⟩ := ih hfirst.room hrest
    rw [List.reverse_cons]
    exact ⟨hr, hfirst.trans hpushed⟩

/-- **The frame of a C function**: the frame pointer of the caller and the return address. -/
theorem callFunction_pushed {ret target locals : ℕ} (hesp : img.stackBottom ≤ c.r.esp)
    (h : callFunction img ret target locals c = .ok c') :
    c'.r.eip = target ∧ c'.r.esp ≤ c'.r.ebp ∧ img.stackBottom ≤ c'.r.esp ∧
      Pushed img c { c' with r := { c'.r with esp := c'.r.ebp } } [c.r.ebp, ret] := by
  rw [callFunction, Run.bind_eq_ok] at h
  obtain ⟨d, hret, h⟩ := h
  obtain ⟨hr, hpushed⟩ := pushAll_pushed hesp hret
  rw [Run.bind_eq_ok] at h
  obtain ⟨e, hebp, h⟩ := h
  obtain ⟨hr', hpushed'⟩ := pushAll_pushed (c := { d with r := { d.r with eip := target } })
    hpushed.room hebp
  have hebp : d.r.ebp = c.r.ebp := by rw [hr]
  simp only at h hpushed' hr'
  split_ifs at h with hlocals
  obtain rfl := Except.ok.inj h
  rw [hebp] at hpushed'
  refine ⟨by rw [hr'], Nat.sub_le _ _, by simp only; omega, ?_⟩
  have hboth := hpushed.trans ⟨hpushed'.esp, hpushed'.room, hpushed'.words, hpushed'.frame⟩
  exact ⟨hboth.esp, hboth.room, hboth.words, hboth.frame⟩

/-- The two tables of error codes agree: the CPU's and the one of `isr_wrapper.S`. -/
theorem hasErrorCode_iff (v : ℕ) : hasErrorCode v ↔ isrErr v := by
  simp [hasErrorCode, isrErr]

theorem wrapperAt_addr {v : ℕ} (hv : v < 48) : wrapperAt img (img.isr.addr v) = some v := by
  rw [wrapperAt, List.find?_range_eq_some]
  refine ⟨by simp, List.mem_range.mpr hv, fun j hj => ?_⟩
  have hne : img.isr.addr j ≠ img.isr.addr v := fun heq =>
    absurd (img.isr.addr_inj j (by omega) v hv heq) (by omega)
  simpa using hne

/-- The error code that `isr_handler` finds. -/
def stubErrorCode (vector errorCode : ℕ) : ℕ := if hasErrorCode vector then errorCode else 0

/-- The dispatch reads an error code only where the CPU has pushed one. -/
theorem isrHandler_stubErrorCode (vector errorCode : ℕ) :
    isrHandler vector (stubErrorCode vector errorCode) = isrHandler vector errorCode := by
  unfold stubErrorCode
  split_ifs with hcode
  · rfl
  · have hfault : vector ≠ 14 := fun h => hcode (h ▸ by decide)
    unfold isrHandler
    split <;> first | rfl | exact absurd rfl hfault

/-- The words that an interrupt leaves on the stack, from the frame pointer of `isr_handler` up. -/
def trapFrame (img : KernelLayout) (vector errorCode : ℕ) (r : Regs) : List ℕ :=
  [r.ebp, img.stubRet, r.esp - 20, r.edi, r.esi, r.ebp, r.esp - 20, r.ebx, r.edx, r.ecx, r.eax,
    vector, stubErrorCode vector errorCode, r.eip, r.cs, r.eflags]

/-- The delivery by the CPU, through the gate of the vector. -/
theorem deliver_pushed {vector errorCode : ℕ} {d : Cpu} (hesp : img.stackBottom ≤ c.r.esp)
    (h : deliver img vector errorCode c = .ok d) :
    vector < 48 ∧ d.r = { c.r with
        esp := d.r.esp, eip := img.isr.addr vector, cs := 0x08, eflags := clearIf c.r.eflags } ∧
      Pushed img c d ((if hasErrorCode vector then [errorCode] else []) ++
        [c.r.eip, c.r.cs, c.r.eflags]) := by
  rw [deliver, setupIdt_gate] at h
  by_cases hv : vector < 48
  · rw [if_pos hv] at h
    simp only [Run.bind_eq_ok] at h
    obtain ⟨e, hpush, h⟩ := h
    obtain ⟨hr, hpushed⟩ := pushAll_pushed hesp hpush
    obtain rfl := Except.ok.inj h
    have hwords : ([c.r.eflags, c.r.cs, c.r.eip] ++
        if hasErrorCode vector then [errorCode] else []).reverse =
        (if hasErrorCode vector then [errorCode] else []) ++ [c.r.eip, c.r.cs, c.r.eflags] := by
      split_ifs <;> rfl
    rw [hwords] at hpushed
    refine ⟨hv, ?_, hpushed.esp, hpushed.room, hpushed.words, hpushed.frame⟩
    rw [hr]
    rfl
  · rw [if_neg hv] at h
    cases h

/-- Up to the jump of the wrapper. -/
theorem isrWrapper_pushed {vector : ℕ} {d d' : Cpu} {errorCode : ℕ}
    (h : Pushed img c d ((if hasErrorCode vector then [errorCode] else []) ++
      [c.r.eip, c.r.cs, c.r.eflags])) (hwrapper : isrWrapper img vector d = .ok d') :
    d'.r = { d.r with esp := d'.r.esp } ∧
      Pushed img c d' [vector, stubErrorCode vector errorCode, c.r.eip, c.r.cs, c.r.eflags] := by
  obtain ⟨hr, hpushed⟩ := pushAll_pushed h.room hwrapper
  have hboth := h.trans hpushed
  refine ⟨hr, ?_⟩
  unfold stubErrorCode
  by_cases hcode : hasErrorCode vector
  · rw [if_pos hcode, if_pos ((hasErrorCode_iff vector).mp hcode)] at hboth
    rwa [if_pos hcode]
  · rw [if_neg hcode, if_neg fun hisr => hcode ((hasErrorCode_iff vector).mpr hisr)] at hboth
    rwa [if_neg hcode]

/-- **The delivery of an interrupt** leads to `isr_handler`, with the registers on the stack. -/
theorem interrupt_pushed {vector errorCode locals : ℕ} (hesp : img.stackBottom ≤ c.r.esp)
    (h : interrupt img vector errorCode locals c = .ok c') :
    vector < 48 ∧ c'.r.eip = img.isrHandler ∧ c'.r.esp ≤ c'.r.ebp ∧
      img.stackBottom ≤ c'.r.esp ∧
      Pushed img c { c' with r := { c'.r with esp := c'.r.ebp } }
        (trapFrame img vector errorCode c.r) := by
  rw [interrupt, Run.bind_eq_ok] at h
  obtain ⟨d, hdeliver, h⟩ := h
  obtain ⟨hv, hdr, hd⟩ := deliver_pushed hesp hdeliver
  rw [show d.r.eip = img.isr.addr vector by rw [hdr], wrapperAt_addr hv] at h
  simp only [Run.bind_eq_ok] at h
  obtain ⟨e, hwrapper, h⟩ := h
  obtain ⟨her, he⟩ := isrWrapper_pushed hd hwrapper
  rw [enterStub, Run.bind_eq_ok] at h
  obtain ⟨f, hpushal, h⟩ := h
  obtain ⟨hfr, hf⟩ := pushAll_pushed he.room hpushal
  rw [Run.bind_eq_ok] at h
  obtain ⟨g, harg, h⟩ := h
  obtain ⟨hgr, hg⟩ := pushAll_pushed (c := { f with r := { f.r with eax := f.r.esp + 0x20 } })
    hf.room harg
  obtain ⟨heip, hle, hroom, hcall⟩ := callFunction_pushed hg.room h
  have hfg : Pushed img f g [f.r.esp + 0x20] := ⟨hg.esp, hg.room, hg.words, hg.frame⟩
  have hall := ((he.trans hf).trans hfg).trans hcall
  -- The words that were pushed, in the registers from before the interrupt.
  have hesp₁ := he.esp
  have hesp₂ := hf.esp
  have hspace : f.r.esp + 0x20 = c.r.esp - 20 ∧ e.r.esp = c.r.esp - 20 := by
    simp only [List.length_reverse, List.length_cons, List.length_nil] at hesp₁ hesp₂
    omega
  have hwords : [g.r.ebp, img.stubRet] ++ ([f.r.esp + 0x20] ++ ([e.r.eax, e.r.ecx, e.r.edx,
      e.r.ebx, e.r.esp, e.r.ebp, e.r.esi, e.r.edi].reverse ++ [vector,
      stubErrorCode vector errorCode, c.r.eip, c.r.cs, c.r.eflags])) =
      trapFrame img vector errorCode c.r := by
    have hebp : g.r.ebp = c.r.ebp := by rw [hgr]; simp only; rw [hfr, her, hdr]
    have her' : e.r = { c.r with
        esp := e.r.esp, eip := img.isr.addr vector, cs := 0x08, eflags := clearIf c.r.eflags } := by
      rw [her, hdr]
    rw [hspace.1, hspace.2, hebp, her']
    rfl
  rw [hwords] at hall
  exact ⟨hv, heip, hle, hroom, hall⟩

/-! ## The ways back -/

/-- **A C function returns** to its caller, with the frame pointer of the caller. -/
theorem leaveRet_eq {ebp ret : ℕ} (h : Words c.mem c.r.ebp [ebp, ret]) :
    leaveRet c = { c with r := { c.r with esp := c.r.ebp + 8, ebp := ebp, eip := ret } } := by
  obtain ⟨hebp, hret, -⟩ := h
  simp [leaveRet, pop, hebp, hret]

/-- **The interrupted code goes on** with the registers that it had. -/
theorem resume_eq {vector errorCode : ℕ} {r : Regs}
    (h : Words c.mem c.r.ebp (trapFrame img vector errorCode r)) (hesp : c.r.ebp + 64 = r.esp) :
    resume c = ⟨r, c.mem⟩ := by
  obtain ⟨-, -, -, hedi, hesi, hebp, -, hebx, hedx, hecx, heax, -, -, heip, hcs, hfl, -⟩ := h
  simp only [Nat.add_assoc, Nat.reduceAdd] at hedi hesi hebp hebx hedx hecx heax heip hcs hfl
  simp only [resume, leaveRet, leaveStub, popal, iret, pop, addEsp, Nat.add_assoc, Nat.reduceAdd,
    hedi, hesi, hebp, hebx, hedx, hecx, heax, heip, hcs, hfl, hesp]

end Pushed

end Ahos
