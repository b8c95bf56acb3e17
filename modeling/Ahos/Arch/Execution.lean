import Ahos.Arch.Stack

/-!
# Activations

The code of the kernel calls functions, returns from them, is interrupted and resumed. The steps
below say what such code may do with its stack: it moves the stack pointer below its frame pointer,
and it writes everywhere but into the words that the activations have saved. Every state that is
reached has its activations on the stack, one above the other, so that each of them can be left
again, and the frame pointers lead from one to the next.
-/

namespace Ahos

/-- A call or an interrupt that has not returned, with the registers from before it: the stack
pointer and the frame pointer of the caller, or all of them. -/
inductive Activation where
  | call (ret esp ebp : ℕ)
  | isr (vector errorCode : ℕ) (saved : Regs)
deriving DecidableEq, Repr

namespace Activation

/-- The stack pointer from before the activation. -/
def esp : Activation → ℕ
  | call _ esp _ => esp
  | isr _ _ saved => saved.esp

/-- The frame pointer from before the activation. -/
def ebp : Activation → ℕ
  | call _ _ ebp => ebp
  | isr _ _ saved => saved.ebp

/-- The words of the activation, from its own frame pointer up. -/
def words (img : KernelLayout) : Activation → List ℕ
  | call ret _ ebp => [ebp, ret]
  | isr vector errorCode saved => trapFrame img vector errorCode saved

/-- The registers when the activation is left. -/
def Left (act : Activation) (r : Regs) : Prop :=
  match act with
  | call ret esp ebp => r.eip = ret ∧ r.esp = esp ∧ r.ebp = ebp
  | isr _ _ saved => r = saved

/-- The way out of the activation. -/
def leave : Activation → Cpu → Cpu
  | call _ _ _ => leaveRet
  | isr _ _ _ => resume

/-- A return address is that of an instruction, and only the call in `isr_common_stub` returns
there. -/
def Proper (img : KernelLayout) : Activation → Prop
  | call ret _ _ => ret ≠ 0 ∧ ret < 4294967296 ∧ ¬img.InStub ret
  | isr _ _ saved => saved.eip < 4294967296

end Activation

/-- The four bytes at `a` are none of those that activations have saved: frame pointers, return
addresses, and the registers from before an interrupt. -/
def Spares (a : ℕ) : ℕ → List Activation → Prop
  | _, [] => True
  | ebp, act :: acts => (a + 4 ≤ ebp ∨ act.esp ≤ a) ∧ Spares a act.ebp acts

/-- The machine and the activations, the innermost one first. -/
structure Exec where
  cpu : Cpu
  acts : List Activation

namespace Exec

/-- The machine with another stack pointer. -/
def setEsp (s : Exec) (esp : ℕ) : Exec :=
  { s with cpu := { s.cpu with r := { s.cpu.r with esp := esp } } }

/-- What the code of the kernel may do. -/
inductive Step (img : KernelLayout) : Exec → Exec → Prop
  /-- A function is called. -/
  | call {s : Exec} {ret target locals : ℕ} {c : Cpu}
      (hproper : (Activation.call ret s.cpu.r.esp s.cpu.r.ebp).Proper img)
      (h : callFunction img ret target locals s.cpu = .ok c) :
      Step img s ⟨c, .call ret s.cpu.r.esp s.cpu.r.ebp :: s.acts⟩
  /-- The other registers change. -/
  | compute {s : Exec} (r : Regs) :
      Step img s ⟨⟨{ r with esp := s.cpu.r.esp, ebp := s.cpu.r.ebp }, s.cpu.mem⟩, s.acts⟩
  /-- The stack pointer moves below the frame pointer, for arguments and saved registers. -/
  | adjust {s : Exec} {esp : ℕ} (hbottom : img.stackBottom ≤ esp) (hebp : esp ≤ s.cpu.r.ebp)
      (hacts : s.acts ≠ []) : Step img s (s.setEsp esp)
  /-- A word is written, into a local variable of any function or outside of the stack. -/
  | store {s : Exec} {a : ℕ} (v : ℕ) (ha : Spares a s.cpu.r.ebp s.acts) :
      Step img s ⟨⟨s.cpu.r, Function.update s.cpu.mem a v⟩, s.acts⟩
  /-- An interrupt is delivered. -/
  | interrupt {s : Exec} {vector errorCode locals : ℕ} {c : Cpu}
      (hproper : (Activation.isr vector errorCode s.cpu.r).Proper img)
      (h : Ahos.interrupt img vector errorCode locals s.cpu = .ok c) :
      Step img s ⟨c, .isr vector errorCode s.cpu.r :: s.acts⟩
  /-- The innermost activation ends. -/
  | leave {c : Cpu} {act : Activation} {acts : List Activation} :
      Step img ⟨c, act :: acts⟩ ⟨act.leave c, acts⟩

/-- `_start` before its call of `kernel_main`, with what the boot loader has left in the
registers and in the memory. -/
def start (img : KernelLayout) (r : Regs) (mem : ℕ → ℕ) : Exec :=
  ⟨⟨{ r with esp := img.stackTop - 8 }, mem⟩, []⟩

/-- The states that the kernel reaches. -/
def Reachable (img : KernelLayout) (r : Regs) (mem : ℕ → ℕ) : Exec → Prop :=
  Relation.ReflTransGen (Step img) (start img r mem)

end Exec

/-! ## The frames on the stack -/

/-- The activations lie on the stack from `a` on, each with its frame pointer, and above them lies
what `_start` has pushed. -/
def Frames (img : KernelLayout) (bootEbp : ℕ) (mem : ℕ → ℕ) : ℕ → ℕ → List Activation → Prop
  | a, ebp, [] => a ≤ img.stackTop ∧ ebp = bootEbp
  | a, ebp, act :: acts =>
    a ≤ ebp ∧ Words mem ebp (act.words img) ∧ ebp + 4 * (act.words img).length = act.esp ∧
      act.Proper img ∧ Frames img bootEbp mem act.esp act.ebp acts

section Frames

variable {img : KernelLayout} {bootEbp : ℕ} {mem mem' : ℕ → ℕ} {acts : List Activation}
  {a a' ebp : ℕ}

theorem Frames.le_stackTop (h : Frames img bootEbp mem a ebp acts) : a ≤ img.stackTop := by
  induction acts generalizing a ebp with
  | nil => exact h.1
  | cons act acts ih =>
    obtain ⟨hle, -, hesp, -, hrest⟩ := h
    have := ih hrest
    omega

theorem Frames.mono (h : Frames img bootEbp mem a ebp acts) (hle : a' ≤ a) :
    Frames img bootEbp mem a' ebp acts := by
  cases acts with
  | nil => exact ⟨hle.trans h.1, h.2⟩
  | cons act acts => exact ⟨hle.trans h.1, h.2⟩

/-- What happens below the frames, or outside of the stack, leaves them. -/
theorem Frames.congr (h : Frames img bootEbp mem a ebp acts)
    (hmem : ∀ x, a ≤ x → x < img.stackTop → mem' x = mem x) :
    Frames img bootEbp mem' a ebp acts := by
  induction acts generalizing a ebp with
  | nil => exact h
  | cons act acts ih =>
    obtain ⟨hle, hwords, hesp, hproper, hrest⟩ := h
    have htop := hrest.le_stackTop
    refine ⟨hle, hwords.congr fun x hx hlt => hmem x (by omega) (by omega), hesp, hproper, ?_⟩
    exact ih hrest fun x hx hlt => hmem x (by omega) hlt

/-- **Frame rule**: a word that is none of the saved ones leaves the frames. -/
theorem Frames.update (h : Frames img bootEbp mem a ebp acts) {w : ℕ} (hw : Spares w ebp acts)
    (v : ℕ) : Frames img bootEbp (Function.update mem w v) a ebp acts := by
  induction acts generalizing a ebp with
  | nil => exact h
  | cons act acts ih =>
    obtain ⟨hle, hwords, hesp, hproper, hrest⟩ := h
    refine ⟨hle, hwords.congr fun x hx hlt => Function.update_of_ne ?_ _ _, hesp, hproper,
      ih hrest hw.2⟩
    have := hw.1
    omega

/-- A new activation, below the other ones. -/
theorem Frames.push {c c' : Cpu} (act : Activation)
    (h : Frames img bootEbp c.mem c.r.esp c.r.ebp acts)
    (hpushed : Pushed img c { c' with r := { c'.r with esp := c'.r.ebp } } (act.words img))
    (hesp : act.esp = c.r.esp) (hebp : act.ebp = c.r.ebp) (hproper : act.Proper img) :
    Frames img bootEbp c'.mem c'.r.ebp c'.r.ebp (act :: acts) := by
  refine ⟨le_rfl, hpushed.words, hpushed.esp.trans hesp.symm, hproper, ?_⟩
  rw [hesp, hebp]
  exact h.congr fun x hx _ => hpushed.frame x hx

/-- **The way out of an activation** restores the registers from before it. -/
theorem Frames.leave {c : Cpu} {act : Activation}
    (h : Frames img bootEbp c.mem a c.r.ebp (act :: acts)) :
    act.Left (act.leave c).r ∧ (act.leave c).mem = c.mem ∧ (act.leave c).r.esp = act.esp ∧
      (act.leave c).r.ebp = act.ebp := by
  obtain ⟨-, hwords, hesp, -, -⟩ := h
  cases act with
  | call ret esp ebp =>
    have heq : (Activation.call ret esp ebp).leave c = _ := leaveRet_eq hwords
    rw [heq]
    exact ⟨⟨rfl, hesp, rfl⟩, rfl, hesp, rfl⟩
  | isr vector errorCode saved =>
    have heq : (Activation.isr vector errorCode saved).leave c = _ := resume_eq hwords hesp
    rw [heq]
    exact ⟨rfl, rfl, rfl, rfl⟩

end Frames

/-! ## Runs -/

section Runs

variable {img : KernelLayout} {r : Regs} {mem : ℕ → ℕ} {s t : Exec}

/-- The activations of the state lie on its stack. -/
structure Exec.Sound (img : KernelLayout) (bootEbp : ℕ) (s : Exec) : Prop where
  bottom : img.stackBottom ≤ s.cpu.r.esp
  frames : Frames img bootEbp s.cpu.mem s.cpu.r.esp s.cpu.r.ebp s.acts

/-- **Step lemma**: every step keeps the activations on the stack. -/
theorem Exec.Sound.step {bootEbp : ℕ} (h : s.Sound img bootEbp) (hstep : Exec.Step img s t) :
    t.Sound img bootEbp := by
  cases hstep with
  | call hproper hcall =>
    obtain ⟨-, hle, hbottom, hpushed⟩ := callFunction_pushed h.bottom hcall
    exact ⟨hbottom, (h.frames.push (.call _ _ _) hpushed rfl rfl hproper).mono hle⟩
  | compute r => exact ⟨h.bottom, h.frames⟩
  | adjust hbottom hebp hacts =>
    obtain ⟨act, acts, hs⟩ := List.exists_cons_of_ne_nil hacts
    have hframes := h.frames
    rw [hs] at hframes
    refine ⟨hbottom, ?_⟩
    simp only [Exec.setEsp]
    rw [hs]
    exact ⟨hebp, hframes.2⟩
  | store v ha => exact ⟨h.bottom, h.frames.update ha v⟩
  | interrupt hproper hinterrupt =>
    obtain ⟨-, -, hle, hbottom, hpushed⟩ := interrupt_pushed h.bottom hinterrupt
    exact ⟨hbottom, (h.frames.push (.isr _ _ _) hpushed rfl rfl hproper).mono hle⟩
  | @leave c act acts =>
    obtain ⟨-, hmem, hesp, hebp⟩ := h.frames.leave
    obtain ⟨hle, -, hwords, -, hrest⟩ := h.frames
    have hbottom := h.bottom
    refine ⟨?_, ?_⟩
    · simp only [hesp]
      simp only at hbottom hle hwords
      omega
    · simp only [hmem, hesp, hebp]
      exact hrest

/-- **Run lemma**: the activations of every state that is reached lie on its stack. -/
theorem Exec.Reachable.sound (h : Exec.Reachable img r mem s) : s.Sound img r.ebp := by
  induction h with
  | refl =>
    have htop : img.stackTop = img.stackBottom + 16384 := rfl
    exact ⟨by simp only [Exec.start]; omega, by simp only [Exec.start]; omega, rfl⟩
  | tail _ hstep ih => exact ih.step hstep

/-- **Calls and interrupts nest.** In every state that the kernel reaches, whatever it calls, is
interrupted by and writes, the end of the innermost activation gives back the registers from
before it: all of them after an interrupt. Until then the argument of `isr_handler` points to the
vector and to the error code of the interrupt, or to `0` if there is none, and the dispatch is that
of the interrupt. -/
theorem activation_restores_registers {act : Activation} {acts : List Activation}
    (h : Exec.Reachable img r mem s) (hacts : s.acts = act :: acts) :
    act.Left (act.leave s.cpu).r ∧
      ∀ vector errorCode saved, act = .isr vector errorCode saved →
        let stack := s.cpu.mem (s.cpu.r.ebp + 8)
        s.cpu.mem stack = vector ∧
          s.cpu.mem (stack + 4) = (if hasErrorCode vector then errorCode else 0) ∧
          isrHandler (s.cpu.mem stack) (s.cpu.mem (stack + 4)) = isrHandler vector errorCode := by
  have hframes := h.sound.frames
  rw [hacts] at hframes
  refine ⟨hframes.leave.1, ?_⟩
  rintro vector errorCode saved rfl
  obtain ⟨-, ⟨-, -, hstack, -, -, -, -, -, -, -, -, hvector, hcode, -⟩, hesp, -⟩ := hframes
  simp only [Nat.add_assoc, Nat.reduceAdd] at hstack hvector hcode
  have hptr : saved.esp - 20 = s.cpu.r.ebp + 44 := by
    simp only [Activation.words, trapFrame, List.length_cons, List.length_nil,
      Activation.esp] at hesp
    omega
  simp only [hstack, hptr, hvector, hcode]
  exact ⟨trivial, rfl, isrHandler_stubErrorCode vector errorCode⟩

/-- A kernel at 1 MiB, with the wrappers behind each other. -/
def kernelAtMiB : KernelLayout where
  isr := ⟨fun i => 0x100100 + i % 48 * 16, fun i => by omega, fun i hi j hj h => by omega⟩
  isrHandler := 0x100800
  stub := 0x100400
  stubLen := 32
  stubRet := 0x100410
  stubRet_mem := by decide
  stub_pos := by decide
  stub_lt := by decide
  stackBottom := 0x104000
  stackBottom_pos := by decide
  stackBottom_le := by decide

set_option maxRecDepth 4000 in
/-- `kernel_main` is interrupted by the clock, whose handler is interrupted by a protection fault.
The fault finds its error code, and the handler of the clock goes on. -/
theorem activation_restores_registers_clock :
    let start := Exec.start kernelAtMiB ⟨0, 0, 0, 0, 0, 0, 0, 0, 0, 0x08, 0x202⟩ fun _ => 0
    ∃ c d e, callFunction kernelAtMiB 0x100050 0x101000 4 start.cpu = .ok c ∧
      interrupt kernelAtMiB 32 0 2 c = .ok d ∧ d.r.esp = 0x107f98 ∧
      interrupt kernelAtMiB 13 0x18 2 d = .ok e ∧ e.mem (e.mem (e.r.ebp + 8)) = 13 ∧
      e.mem (e.mem (e.r.ebp + 8) + 4) = 0x18 ∧ (resume e).r = d.r := by
  intro start
  obtain ⟨c, hcall, d, hclock, hesp, heip, e, hfault⟩ : ∃ c,
      callFunction kernelAtMiB 0x100050 0x101000 4 start.cpu = .ok c ∧ ∃ d,
      interrupt kernelAtMiB 32 0 2 c = .ok d ∧ d.r.esp = 0x107f98 ∧ d.r.eip = 0x100800 ∧ ∃ e,
      interrupt kernelAtMiB 13 0x18 2 d = .ok e := ⟨_, rfl, _, rfl, rfl, rfl, _, rfl⟩
  have hc : (Activation.isr 32 0 c.r).Proper kernelAtMiB := by
    rw [Activation.Proper, (callFunction_pushed (by decide) hcall).1]
    decide
  have hreach : Exec.Reachable kernelAtMiB _ _ _ :=
    .tail (.tail .refl (.call ⟨by decide, by decide, by decide⟩ hcall)) (.interrupt hc hclock)
  have hd : (Activation.isr 13 0x18 d.r).Proper kernelAtMiB := by
    rw [Activation.Proper, heip]
    decide
  obtain ⟨hleft, hfound⟩ := activation_restores_registers (hreach.tail (.interrupt hd hfault)) rfl
  obtain ⟨hvector, hcode, -⟩ := hfound 13 0x18 d.r rfl
  exact ⟨c, d, e, hcall, hclock, hesp, hfault, hvector, hcode, hleft⟩

end Runs

end Ahos
