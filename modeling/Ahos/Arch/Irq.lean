import Ahos.Mem.Memory

/-!
# Interrupt lines

`irq.c` on a pair of 8259A chips. A chip has a mask register, an in-service register and the
sequence of initialisation words it waits for; the driver reaches it through two ports. The slave
hangs on input 2 of the master, so a line of the slave is delivered only if both masks let it
through. Of the commands, the chips know those that the driver sends: the initialisation and the
non-specific end of interrupt.
-/

namespace Ahos

/-! ## The chips -/

/-- What a chip takes the next byte on its data port for. -/
inductive IcwState where
  | ready
  | icw2
  | icw3
  | icw4
deriving DecidableEq, Repr

/-- An 8259A chip. -/
structure Pic where
  /-- The mask register. -/
  imr : BitVec 8
  /-- The in-service register. -/
  isr : BitVec 8
  icw2 : BitVec 8
  icw3 : BitVec 8
  icw4 : BitVec 8
  state : IcwState
deriving DecidableEq, Repr

/-- The bit of an input. -/
def lineBit (i : ℕ) : BitVec 8 := BitVec.ofNat 8 (1 <<< i)

/-- A non-specific end of interrupt clears the in-service bit of the highest priority, which is
the lowest bit. -/
def clearHighest (isr : BitVec 8) : BitVec 8 :=
  match (List.range 8).find? fun i => isr.getLsbD i with
  | some i => isr &&& ~~~lineBit i
  | none => isr

/-- A byte on the command port. Bit 4 starts the initialisation, with four words. -/
def Pic.command (pic : Pic) (value : BitVec 8) : Pic :=
  if value.getLsbD 4 then
    { pic with imr := 0, isr := 0, state := .icw2 }
  else if value = 0x20 then
    { pic with isr := clearHighest pic.isr }
  else pic

/-- A byte on the data port. -/
def Pic.data (pic : Pic) (value : BitVec 8) : Pic :=
  match pic.state with
  | .ready => { pic with imr := value }
  | .icw2 => { pic with icw2 := value, state := .icw3 }
  | .icw3 => { pic with icw3 := value, state := .icw4 }
  | .icw4 => { pic with icw4 := value, state := .ready }

/-- The two chips. -/
structure Pics where
  master : Pic
  slave : Pic
deriving DecidableEq, Repr

/-- `MPIC_CMD`. -/
def mpicCmd : ℕ := 0x20

/-- `MPIC_DATA`. -/
def mpicData : ℕ := 0x21

/-- `SPIC_CMD`. -/
def spicCmd : ℕ := 0xa0

/-- `SPIC_DATA`. -/
def spicData : ℕ := 0xa1

/-- `outb` to a port of the chips. -/
def Pics.outb (s : Pics) (port : ℕ) (value : BitVec 8) : Pics :=
  if port = mpicCmd then { s with master := s.master.command value }
  else if port = mpicData then { s with master := s.master.data value }
  else if port = spicCmd then { s with slave := s.slave.command value }
  else if port = spicData then { s with slave := s.slave.data value }
  else s

/-- `inb` from a data port: the mask register. -/
def Pics.inb (s : Pics) (port : ℕ) : BitVec 8 :=
  if port = mpicData then s.master.imr else s.slave.imr

/-- A line is let through by the masks. -/
def Pics.deliverable (s : Pics) (i : ℕ) : Bool :=
  if i < 8 then !s.master.imr.getLsbD i
  else !s.slave.imr.getLsbD (i - 8) && !s.master.imr.getLsbD 2

/-- An interrupt is delivered: it is in service in its chip, and in the master if it comes from the
slave. -/
def Pics.deliver (s : Pics) (i : ℕ) : Pics :=
  if i < 8 then { s with master := { s.master with isr := s.master.isr ||| lineBit i } }
  else
    { master := { s.master with isr := s.master.isr ||| lineBit 2 }
      slave := { s.slave with isr := s.slave.isr ||| lineBit (i - 8) } }

/-! ## The driver -/

/-- The port and the bit of a line. -/
def irqPort (irq : ℕ) : ℕ × ℕ := if irq < 8 then (mpicData, irq) else (spicData, irq - 8)

/-- `irq_set_mask`. -/
def irqSetMask (s : Pics) (irq : ℕ) : Pics :=
  let (port, irq) := irqPort irq
  s.outb port (s.inb port ||| lineBit irq)

/-- `irq_clear_mask`. -/
def irqClearMask (s : Pics) (irq : ℕ) : Pics :=
  let (port, irq) := irqPort irq
  s.outb port (s.inb port &&& ~~~lineBit irq)

/-- `IRQ_MAX_VALUE`. -/
def irqMaxValue : ℕ := 15

/-- `irq_send_eoi`. -/
def irqSendEoi (s : Pics) (irq : ℕ) : Pics :=
  if irq > irqMaxValue then s
  else
    let s := if irq > 8 then s.outb spicCmd 0x20 else s
    s.outb mpicCmd 0x20

/-- `irq_init`. -/
def irqInit (s : Pics) (masterOffset slaveOffset : BitVec 8) : Outcome Pics :=
  if masterOffset < 32 ∨ slaveOffset < 32 then
    panic "invalid master/slave offset"
  else
    let s := s.outb mpicCmd 0x11
    let s := s.outb spicCmd 0x11
    let s := s.outb mpicData masterOffset
    let s := s.outb spicData slaveOffset
    let s := s.outb mpicData (lineBit 2)
    let s := s.outb spicData 0x2
    let s := s.outb mpicData 0x1
    let s := s.outb spicData 0x1
    .ok ((List.range 16).foldl irqSetMask s)

/-! ## Runs -/

/-- An interrupt line other than the cascade input. -/
structure IrqLine where
  val : ℕ
  lt : val < 16
  ne : val ≠ 2
deriving DecidableEq, Repr

/-- A call of the driver, or a line that asks for service. -/
inductive IrqOp where
  | setMask (i : IrqLine)
  | clearMask (i : IrqLine)
  | interrupt (i : IrqLine)
deriving DecidableEq, Repr

/-- An interrupt of a deliverable line is delivered and completed; a line that is masked is not
served. -/
def Pics.step (s : Pics) : IrqOp → Pics
  | .setMask i => irqSetMask s i.val
  | .clearMask i => irqClearMask s i.val
  | .interrupt i => if s.deliverable i.val then irqSendEoi (s.deliver i.val) i.val else s

/-- The lines whose last mask operation was `irq_clear_mask`, after one more operation. -/
def IrqOp.unmask (unmasked : IrqLine → Bool) : IrqOp → IrqLine → Bool
  | .setMask i => fun j => if j = i then false else unmasked j
  | .clearMask i => fun j => if j = i then true else unmasked j
  | .interrupt _ => unmasked

/-- The lines whose last mask operation was `irq_clear_mask`. -/
def unmasked (ops : List IrqOp) : IrqLine → Bool := ops.foldl IrqOp.unmask fun _ => false

/-- The deliverable lines are those whose last mask operation was `irq_clear_mask`, and no line is
in service. -/
def Pics.Exact (s : Pics) (lines : IrqLine → Bool) : Prop :=
  (∀ i : IrqLine, s.deliverable i.val = lines i) ∧ s.master.isr = 0 ∧ s.slave.isr = 0

/-- The operation unmasks a line of the slave. -/
def IrqOp.UnmasksSlave : IrqOp → Prop
  | .clearMask i => 8 ≤ i.val
  | _ => False

/-! ## The mask registers -/

theorem getLsbD_lineBit {i j : ℕ} (hj : j < 8) : (lineBit i).getLsbD j = decide (j = i) := by
  rw [lineBit, BitVec.getLsbD_ofNat, Nat.one_shiftLeft, Nat.testBit_two_pow]
  simp [hj, eq_comm]

/-- The mask bit of a line. -/
def Pics.masked (s : Pics) (i : ℕ) : Bool :=
  if i < 8 then s.master.imr.getLsbD i else s.slave.imr.getLsbD (i - 8)

/-- Both chips are initialised. -/
def Pics.Ready (s : Pics) : Prop := s.master.state = .ready ∧ s.slave.state = .ready

section Mask

variable {s : Pics} {i j : ℕ}

/-- Changing a mask register changes nothing else. -/
theorem outb_data (hs : s.Ready) (value : BitVec 8) :
    s.outb mpicData value = { s with master := { s.master with imr := value } } ∧
      s.outb spicData value = { s with slave := { s.slave with imr := value } } := by
  obtain ⟨hm, hsl⟩ := hs
  constructor
  · simp only [Pics.outb, mpicData, mpicCmd, Pic.data, hm]
    rfl
  · simp only [Pics.outb, mpicData, mpicCmd, spicCmd, spicData, Pic.data, hsl]
    rfl

/-- The mask registers after the bit of line `i` was combined with its old value. -/
theorem masked_outb (hs : s.Ready) (hi : i < 16) {f : BitVec 8 → BitVec 8 → BitVec 8}
    {g : Bool → Bool → Bool} (hg : ∀ b, g b false = b)
    (hf : ∀ x k, ∀ j < 8, (f x (lineBit k)).getLsbD j = g (x.getLsbD j) (decide (j = k)))
    {t : Pics}
    (ht : t = s.outb (irqPort i).1 (f (s.inb (irqPort i).1) (lineBit (irqPort i).2))) :
    t.Ready ∧ t.master.isr = s.master.isr ∧ t.slave.isr = s.slave.isr ∧
      ∀ j < 16, t.masked j = g (s.masked j) (decide (j = i)) := by
  obtain ⟨hmaster, hslave⟩ := outb_data hs (f (s.inb (irqPort i).1) (lineBit (irqPort i).2))
  by_cases h8 : i < 8
  · have hport : irqPort i = (mpicData, i) := if_pos h8
    rw [hport] at ht hmaster
    subst ht
    rw [hmaster]
    refine ⟨hs, rfl, rfl, fun j hj => ?_⟩
    simp only [Pics.masked]
    split_ifs with hj8
    · exact hf _ _ _ hj8
    · -- a line of the other chip
      rw [decide_eq_false (by omega), hg]
  · have hport : irqPort i = (spicData, i - 8) := if_neg h8
    rw [hport] at ht hslave
    subst ht
    rw [hslave]
    refine ⟨hs, rfl, rfl, fun j hj => ?_⟩
    simp only [Pics.masked]
    split_ifs with hj8
    · rw [decide_eq_false (by omega), hg]
    · rw [hf _ _ _ (by omega)]
      congr 1
      exact decide_eq_decide.mpr (by omega)

/-- `irq_set_mask` sets the bit of its line. -/
theorem irqSetMask_spec (hs : s.Ready) (hi : i < 16) :
    (irqSetMask s i).Ready ∧ (irqSetMask s i).master.isr = s.master.isr ∧
      (irqSetMask s i).slave.isr = s.slave.isr ∧
      ∀ j < 16, (irqSetMask s i).masked j = (s.masked j || decide (j = i)) :=
  masked_outb hs hi (f := fun x bit => x ||| bit) Bool.or_false
    (fun x k j hj => by rw [BitVec.getLsbD_or, getLsbD_lineBit hj]) rfl

/-- The loop of `irq_init` over the first `n` lines. -/
theorem foldl_irqSetMask {n : ℕ} (hs : s.Ready) (hn : n ≤ 16) :
    ((List.range n).foldl irqSetMask s).Ready ∧
      ((List.range n).foldl irqSetMask s).master.isr = s.master.isr ∧
      ((List.range n).foldl irqSetMask s).slave.isr = s.slave.isr ∧
      ∀ j < 16, ((List.range n).foldl irqSetMask s).masked j = (s.masked j || decide (j < n)) := by
  induction n with
  | zero => exact ⟨hs, rfl, rfl, fun j _ => by simp⟩
  | succ n ih =>
    obtain ⟨hready, hmaster, hslave, hmask⟩ := ih (by omega)
    rw [List.range_succ, List.foldl_append, List.foldl_cons, List.foldl_nil]
    obtain ⟨hready', hmaster', hslave', hmask'⟩ := irqSetMask_spec hready (i := n) (by omega)
    refine ⟨hready', hmaster'.trans hmaster, hslave'.trans hslave, fun j hj => ?_⟩
    rw [hmask' j hj, hmask j hj, Bool.or_assoc, ← Bool.decide_or]
    congr 1
    exact decide_eq_decide.mpr (by omega)

/-- `irq_clear_mask` clears the bit of its line. -/
theorem irqClearMask_spec (hs : s.Ready) (hi : i < 16) :
    (irqClearMask s i).Ready ∧ (irqClearMask s i).master.isr = s.master.isr ∧
      (irqClearMask s i).slave.isr = s.slave.isr ∧
      ∀ j < 16, (irqClearMask s i).masked j = (s.masked j && !decide (j = i)) :=
  masked_outb hs hi (f := fun x bit => x &&& ~~~bit) (g := fun b c => b && !c) (by simp)
    (fun x k j hj => by
      rw [BitVec.getLsbD_and, BitVec.getLsbD_not, getLsbD_lineBit hj, decide_eq_true hj,
        Bool.true_and]) rfl

theorem deliverable_eq (s : Pics) (i : ℕ) :
    s.deliverable i = (!s.masked i && (decide (i < 8) || !s.masked 2)) := by
  by_cases h8 : i < 8
  · simp [Pics.deliverable, Pics.masked, h8]
  · simp [Pics.deliverable, Pics.masked, h8]

/-- A completed interrupt of the master leaves no line in service. -/
theorem irqSendEoi_deliver (hi : i < 8) (hisr : s.master.isr = 0) :
    irqSendEoi (s.deliver i) i = s := by
  have hbit : clearHighest (0 ||| lineBit i) = 0 := by
    revert i
    decide
  have hcmd : ∀ t : Pics, t.outb mpicCmd 0x20 =
      { t with master := { t.master with isr := clearHighest t.master.isr } } := fun t => rfl
  rw [irqSendEoi, if_neg (by simp only [irqMaxValue]; omega)]
  simp only [if_neg (show ¬ i > 8 by omega), hcmd, Pics.deliver, if_pos hi, hisr, hbit]
  rw [← hisr]

/-- A completed interrupt of the slave. The test of `irq_send_eoi` for a line of the slave leaves
out the first one, line 8: its in-service bit stays set in the slave. -/
theorem irqSendEoi_slave (hlo : 8 ≤ i) (hhi : i < 16) (hmaster : s.master.isr = 0)
    (hslave : s.slave.isr = 0) :
    (irqSendEoi (s.deliver i) i).master.isr = 0 ∧
      (irqSendEoi (s.deliver i) i).slave.isr = if i = 8 then lineBit 0 else 0 := by
  have hbit : ∀ k < 8, clearHighest (0 ||| lineBit k) = 0 := by decide
  have hcmd : ∀ t : Pics, t.outb mpicCmd 0x20 =
      { t with master := { t.master with isr := clearHighest t.master.isr } } := fun t => rfl
  have hcmd' : ∀ t : Pics, t.outb spicCmd 0x20 =
      { t with slave := { t.slave with isr := clearHighest t.slave.isr } } := fun t => rfl
  rw [irqSendEoi, if_neg (by simp only [irqMaxValue]; omega)]
  simp only [hcmd, Pics.deliver, if_neg (show ¬ i < 8 by omega), hmaster, hslave]
  by_cases h8 : i = 8
  · subst h8
    exact ⟨hbit 2 (by omega), rfl⟩
  · rw [if_pos (show i > 8 by omega), if_neg h8, hcmd']
    exact ⟨hbit 2 (by omega), hbit _ (by omega)⟩

end Mask

/-! ## The lines over whole runs -/

/-- What holds at every point of a run: the mask bits are those of the last mask operations, the
cascade input is masked, and no line is in service. -/
structure PicInv (s : Pics) (lines : IrqLine → Bool) : Prop where
  ready : s.Ready
  cascade : s.masked 2 = true
  masked : ∀ i : IrqLine, s.masked i.val = !lines i
  master : s.master.isr = 0
  slave : s.slave.isr = 0

/-- After `irq_init` everything is masked. -/
theorem irqInit_inv {s₀ s : Pics} {masterOffset slaveOffset : BitVec 8}
    (h : irqInit s₀ masterOffset slaveOffset = .ok s) : PicInv s fun _ => false := by
  unfold irqInit at h
  split at h
  · cases h
  · obtain rfl := Except.ok.inj h
    have hwords : (((((((s₀.outb mpicCmd 0x11).outb spicCmd 0x11).outb mpicData
        masterOffset).outb spicData slaveOffset).outb mpicData (lineBit 2)).outb spicData 0x2).outb
        mpicData 0x1).outb spicData 0x1 = ⟨⟨0, 0, masterOffset, 0x4, 0x1, .ready⟩,
          ⟨0, 0, slaveOffset, 0x2, 0x1, .ready⟩⟩ := rfl
    simp only [hwords]
    obtain ⟨hready, hmaster, hslave, hmask⟩ := foldl_irqSetMask (n := 16)
      (s := ⟨⟨0, 0, masterOffset, 0x4, 0x1, .ready⟩, ⟨0, 0, slaveOffset, 0x2, 0x1, .ready⟩⟩)
      ⟨rfl, rfl⟩ le_rfl
    refine ⟨hready, ?_, fun i => ?_, hmaster, hslave⟩
    · rw [hmask 2 (by omega), decide_eq_true (by omega), Bool.or_true]
    · rw [hmask _ i.lt, decide_eq_true i.lt, Bool.or_true]
      rfl

theorem IrqLine.val_ne {i j : IrqLine} (h : j ≠ i) : j.val ≠ i.val := by
  intro heq
  apply h
  cases i
  cases j
  simpa using heq

/-- Every operation keeps the lines. -/
theorem Pics.step_inv {s : Pics} {lines : IrqLine → Bool} (h : PicInv s lines) (op : IrqOp) :
    PicInv (s.step op) (op.unmask lines) := by
  cases op with
  | setMask i =>
    obtain ⟨hready, hmaster, hslave, hmask⟩ := irqSetMask_spec h.ready i.lt
    refine ⟨hready, ?_, fun j => ?_, hmaster.trans h.master, hslave.trans h.slave⟩
    · rw [Pics.step, hmask 2 (by omega), h.cascade, Bool.true_or]
    · rw [Pics.step, hmask _ j.lt, h.masked, IrqOp.unmask]
      by_cases hj : j = i
      · simp [hj]
      · simp [hj, IrqLine.val_ne hj]
  | clearMask i =>
    obtain ⟨hready, hmaster, hslave, hmask⟩ := irqClearMask_spec h.ready i.lt
    refine ⟨hready, ?_, fun j => ?_, hmaster.trans h.master, hslave.trans h.slave⟩
    · rw [Pics.step, hmask 2 (by omega), h.cascade, decide_eq_false i.ne.symm]
      rfl
    · rw [Pics.step, hmask _ j.lt, h.masked, IrqOp.unmask]
      by_cases hj : j = i
      · simp [hj]
      · simp [hj, IrqLine.val_ne hj]
  | interrupt i =>
    rw [Pics.step]
    split
    · next hdeliver =>
      -- behind the masked cascade input nothing is deliverable
      rw [deliverable_eq, h.cascade] at hdeliver
      have h8 : i.val < 8 := by simpa using (Bool.and_eq_true_iff.mp hdeliver).2
      rw [irqSendEoi_deliver h8 h.master]
      exact h
    · exact h

theorem Pics.run_inv {s : Pics} {lines : IrqLine → Bool} (h : PicInv s lines) (ops : List IrqOp) :
    PicInv (ops.foldl Pics.step s) (ops.foldl IrqOp.unmask lines) := by
  induction ops generalizing s lines with
  | nil => exact h
  | cons op ops ih => exact ih (Pics.step_inv h op)

/-- The lines are exact if and only if no line of the slave is unmasked. -/
theorem PicInv.exact_iff {s : Pics} {lines : IrqLine → Bool} (h : PicInv s lines) :
    s.Exact lines ↔ ∀ i : IrqLine, 8 ≤ i.val → lines i = false := by
  have hdeliver : ∀ i : IrqLine, s.deliverable i.val = (lines i && decide (i.val < 8)) := by
    intro i
    rw [deliverable_eq, h.cascade, h.masked]
    simp
  constructor
  · rintro ⟨hexact, -⟩ i hi
    rw [← hexact i, hdeliver i, decide_eq_false (by omega), Bool.and_false]
  · intro hslave
    refine ⟨fun i => ?_, h.master, h.slave⟩
    rw [hdeliver i]
    by_cases hi : i.val < 8
    · simp [hi]
    · simp [hi, hslave i (by omega)]

/-- No operation has unmasked a line of the slave. -/
theorem unmasked_slave {ops : List IrqOp} (h : ∀ op ∈ ops, ¬ op.UnmasksSlave)
    {lines : IrqLine → Bool} (hlines : ∀ i : IrqLine, 8 ≤ i.val → lines i = false) (i : IrqLine)
    (hi : 8 ≤ i.val) : ops.foldl IrqOp.unmask lines i = false := by
  induction ops generalizing lines with
  | nil => exact hlines i hi
  | cons op ops ih =>
    refine ih (fun op hop => h op (List.mem_cons_of_mem _ hop)) fun j hj => ?_
    cases op with
    | setMask k =>
      simp only [IrqOp.unmask]
      split_ifs
      · rfl
      · exact hlines j hj
    | clearMask k =>
      have hk := h (.clearMask k) (List.mem_cons_self ..)
      simp only [IrqOp.UnmasksSlave] at hk
      simp only [IrqOp.unmask]
      rw [if_neg]
      · exact hlines j hj
      · rintro rfl
        exact hk hj
    | interrupt k => exact hlines j hj

/-- **The lines are independent exactly on the master.** After `irq_init`, at every point of a run
the deliverable lines are those whose last mask operation was `irq_clear_mask`, with no line in
service, if and only if no operation of the run unmasks a line of the slave: the cascade input
stays masked, so `irq_clear_mask` of such a line has no effect on what is delivered. -/
theorem irq_lines_exact_iff {s₀ s : Pics} {masterOffset slaveOffset : BitVec 8}
    (hinit : irqInit s₀ masterOffset slaveOffset = .ok s) (ops : List IrqOp) :
    (∀ pre, pre <+: ops → (pre.foldl Pics.step s).Exact (unmasked pre)) ↔
      ∀ op ∈ ops, ¬ op.UnmasksSlave := by
  have hinv : ∀ pre, PicInv (pre.foldl Pics.step s) (unmasked pre) :=
    fun pre => Pics.run_inv (irqInit_inv hinit) pre
  constructor
  · intro hexact op hop hslave
    obtain ⟨l, r, rfl⟩ := List.append_of_mem hop
    have hpre := hexact (l ++ [op]) ⟨r, by simp⟩
    rw [(hinv _).exact_iff] at hpre
    cases op with
    | setMask i => exact hslave
    | interrupt i => exact hslave
    | clearMask i =>
      -- the line is unmasked, right after the operation
      have hnot := hpre i hslave
      simp [unmasked, IrqOp.unmask] at hnot
  · intro h pre hpre
    rw [(hinv pre).exact_iff]
    exact unmasked_slave (fun op hop => h op (hpre.subset hop)) fun _ _ => rfl

/-- Chips as they may be before `irq_init`. -/
def bootPics : Pics := ⟨⟨0xb8, 0, 0x08, 0x4, 0x1, .ready⟩, ⟨0x8f, 0, 0x70, 0x2, 0x1, .ready⟩⟩

/-- The clock and the keyboard are unmasked and interrupt: both lines are deliverable. -/
theorem irq_lines_exact_iff_clock :
    ∃ s, irqInit bootPics 0x20 0x28 = .ok s ∧
      ([.clearMask ⟨0, by decide, by decide⟩, .interrupt ⟨0, by decide, by decide⟩,
        .clearMask ⟨1, by decide, by decide⟩].foldl Pics.step s).Exact
          (unmasked [.clearMask ⟨0, by decide, by decide⟩, .interrupt ⟨0, by decide, by decide⟩,
            .clearMask ⟨1, by decide, by decide⟩]) := by
  refine ⟨_, rfl, ?_⟩
  refine (@irq_lines_exact_iff bootPics _ 0x20 0x28 rfl _).mpr ?_ _ List.prefix_rfl
  simp [IrqOp.UnmasksSlave]

/-- The mouse: after `irq_clear_mask(12)` the line is not deliverable. -/
theorem irq_lines_not_exact_mouse :
    ∃ s, irqInit bootPics 0x20 0x28 = .ok s ∧
      unmasked [.clearMask ⟨12, by decide, by decide⟩] ⟨12, by decide, by decide⟩ = true ∧
      ([.clearMask ⟨12, by decide, by decide⟩].foldl Pics.step s).deliverable 12 = false :=
  ⟨_, rfl, rfl, rfl⟩

end Ahos
