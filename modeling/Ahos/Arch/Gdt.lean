import Mathlib.Data.Nat.Notation
import Mathlib.Tactic.IntervalCases

/-!
# The global descriptor table

`create_descriptor` in `tools/gdt_descriptor.c` and the table of `gdt.c`, with what the CPU makes of
a descriptor, of a selector and of an offset.
-/

namespace Ahos

/-! ## Descriptors -/

/-- `create_descriptor`. -/
def createDescriptor (base limit : BitVec 32) (flag : BitVec 16) : BitVec 64 :=
  let descriptor := (limit &&& 0x000f0000).setWidth 64
  let descriptor := descriptor ||| ((flag.setWidth 32 <<< 8) &&& 0x00f0ff00).setWidth 64
  let descriptor := descriptor ||| ((base >>> 16) &&& 0x000000ff).setWidth 64
  let descriptor := descriptor ||| (base &&& 0xff000000).setWidth 64
  let descriptor := descriptor <<< 32
  let descriptor := descriptor ||| (base <<< 16).setWidth 64
  descriptor ||| (limit &&& 0x0000ffff).setWidth 64

/-- What the CPU reads from a descriptor. -/
structure Segment where
  base : BitVec 32
  limit : BitVec 20
  type : BitVec 4
  /-- A segment for code or data, and not for the system. -/
  codeOrData : Bool
  privilege : BitVec 2
  present : Bool
  available : Bool
  long : Bool
  size : Bool
  granularity : Bool
deriving DecidableEq, Repr

/-- The fields of a descriptor. -/
def decodeDescriptor (descriptor : BitVec 64) : Segment where
  base := descriptor.extractLsb' 56 8 ++ descriptor.extractLsb' 32 8 ++ descriptor.extractLsb' 16 16
  limit := descriptor.extractLsb' 48 4 ++ descriptor.extractLsb' 0 16
  type := descriptor.extractLsb' 40 4
  codeOrData := descriptor.getLsbD 44
  privilege := descriptor.extractLsb' 45 2
  present := descriptor.getLsbD 47
  available := descriptor.getLsbD 52
  long := descriptor.getLsbD 53
  size := descriptor.getLsbD 54
  granularity := descriptor.getLsbD 55

/-- The segment that the arguments of `create_descriptor` describe. -/
def segmentOf (base limit : BitVec 32) (flag : BitVec 16) : Segment where
  base := base
  limit := limit.setWidth 20
  type := flag.extractLsb' 0 4
  codeOrData := flag.getLsbD 4
  privilege := flag.extractLsb' 5 2
  present := flag.getLsbD 7
  available := flag.getLsbD 12
  long := flag.getLsbD 13
  size := flag.getLsbD 14
  granularity := flag.getLsbD 15

section Descriptors

variable (base limit : BitVec 32) (flag : BitVec 16)

/-- The bits of a descriptor. -/
theorem getLsbD_createDescriptor {i : ℕ} (hi : i < 64) :
    (createDescriptor base limit flag).getLsbD i =
      if i < 16 then limit.getLsbD i
      else if i < 40 then base.getLsbD (i - 16)
      else if i < 48 then flag.getLsbD (i - 40)
      else if i < 52 then limit.getLsbD (i - 32)
      else if i < 56 then flag.getLsbD (i - 40)
      else base.getLsbD (i - 32) := by
  interval_cases i <;> simp [createDescriptor]

/-- **The CPU reads what `create_descriptor` was given**: the base, the low 20 bits of the limit and
the flags. -/
theorem decodeDescriptor_createDescriptor :
    decodeDescriptor (createDescriptor base limit flag) = segmentOf base limit flag := by
  have hbit : ∀ i < 64, _ := fun i hi => getLsbD_createDescriptor base limit flag (i := i) hi
  rw [decodeDescriptor, segmentOf, Segment.mk.injEq]
  refine ⟨?_, ?_, ?_, hbit 44 (by decide), ?_, hbit 47 (by decide), hbit 52 (by decide),
    hbit 53 (by decide), hbit 54 (by decide), hbit 55 (by decide)⟩ <;>
    refine BitVec.eq_of_getLsbD_eq fun i hi => ?_
  case refine_1 =>
    simp only [BitVec.getLsbD_append, BitVec.getLsbD_extractLsb']
    grind
  case refine_2 =>
    simp only [BitVec.getLsbD_append, BitVec.getLsbD_extractLsb', BitVec.getLsbD_setWidth]
    grind
  case refine_3 =>
    simp only [BitVec.getLsbD_extractLsb']
    grind
  case refine_4 =>
    simp only [BitVec.getLsbD_extractLsb']
    grind

end Descriptors

/-! ## The table -/

/-- `SEG_DESCTYPE`. -/
def segDesctype (x : BitVec 16) : BitVec 16 := x <<< 0x04

/-- `SEG_PRES`. -/
def segPres (x : BitVec 16) : BitVec 16 := x <<< 0x07

/-- `SEG_SAVL`. -/
def segSavl (x : BitVec 16) : BitVec 16 := x <<< 0x0c

/-- `SEG_LONG`. -/
def segLong (x : BitVec 16) : BitVec 16 := x <<< 0x0d

/-- `SEG_SIZE`. -/
def segSize (x : BitVec 16) : BitVec 16 := x <<< 0x0e

/-- `SEG_GRAN`. -/
def segGran (x : BitVec 16) : BitVec 16 := x <<< 0x0f

/-- `SEG_PRIV`. -/
def segPriv (x : BitVec 16) : BitVec 16 := (x &&& 0x03) <<< 0x05

/-- `SEG_DATA_RDWR`. -/
def segDataRdwr : BitVec 16 := 0x02

/-- `SEG_CODE_EXRD`. -/
def segCodeExrd : BitVec 16 := 0x0a

/-- `GDT_CODE_PL0`, `GDT_DATA_PL0`, `GDT_CODE_PL3` and `GDT_DATA_PL3`, by privilege and type. -/
def gdtFlags (privilege type : BitVec 16) : BitVec 16 :=
  segDesctype 1 ||| segPres 1 ||| segSavl 0 ||| segLong 0 ||| segSize 1 ||| segGran 1 |||
    segPriv privilege ||| type

/-- `main` of the tool: the descriptors that it prints. -/
def gdtDescriptorMain : List (BitVec 64) :=
  [createDescriptor 0 0 0,
    createDescriptor 0 0x000fffff (gdtFlags 0 segCodeExrd),
    createDescriptor 0 0x000fffff (gdtFlags 0 segDataRdwr),
    createDescriptor 0 0x000fffff (gdtFlags 3 segCodeExrd),
    createDescriptor 0 0x000fffff (gdtFlags 3 segDataRdwr)]

/-- `gdt`. -/
def gdt : List (BitVec 64) :=
  [0x0000000000000000, 0x00cf9a000000ffff, 0x00cf92000000ffff, 0x00cffa000000ffff,
    0x00cff2000000ffff]

theorem gdt_eq_gdtDescriptorMain : gdt = gdtDescriptorMain := by decide

/-! ## Selectors -/

/-- What a segment register is for. -/
inductive SegmentRegister where
  | code
  | stack
  | data
deriving DecidableEq, Repr

namespace Segment

/-- A segment for code. -/
def isCode (s : Segment) : Bool := s.type.getLsbD 3

/-- A code segment that keeps the privilege of its caller. -/
def isConforming (s : Segment) : Bool := s.isCode && s.type.getLsbD 2

/-- A code segment that can be read, or a data segment that can be written. -/
def isOpen (s : Segment) : Bool := s.type.getLsbD 1

/-- The CPU, at its privilege level `cpl`, takes the segment for a selector with the requested
level `rpl`. -/
def Admits (s : Segment) (register : SegmentRegister) (cpl rpl : BitVec 2) : Prop :=
  match register with
  | .code => s.isCode ∧ if s.isConforming then s.privilege ≤ cpl else rpl ≤ cpl ∧ s.privilege = cpl
  | .stack => s.isCode = false ∧ s.isOpen ∧ rpl = cpl ∧ s.privilege = cpl
  | .data => (s.isCode → s.isOpen) ∧ (s.isConforming ∨ rpl ≤ s.privilege ∧ cpl ≤ s.privilege)

instance (s : Segment) (register : SegmentRegister) (cpl rpl : BitVec 2) :
    Decidable (s.Admits register cpl rpl) :=
  match register with
  | .code => inferInstanceAs (Decidable (_ ∧ ite _ _ _))
  | .stack => inferInstanceAs (Decidable (_ ∧ _))
  | .data => inferInstanceAs (Decidable (_ ∧ _))

end Segment

/-- The segment that a register gets from a selector for the global table. The null selector has
none, and where the CPU refuses the selector it faults. -/
def loadSelector (table : List (BitVec 64)) (register : SegmentRegister) (cpl : BitVec 2)
    (selector : BitVec 16) : Option Segment :=
  if selector.toNat / 8 = 0 ∨ selector.getLsbD 2 then none
  else (table[selector.toNat / 8]?.map decodeDescriptor).filter fun s =>
    s.present && s.codeOrData && s.Admits register cpl (selector.extractLsb' 0 2)

/-- The loads of `asm_reset_segment_selectors`: `cs`, then `ds`, `fs`, `gs` and `ss`. -/
def asmResetSegmentSelectors : List (SegmentRegister × BitVec 16) :=
  [(.code, 0x08), (.data, 0x10), (.data, 0x10), (.data, 0x10), (.stack, 0x10)]

/-! ## Addresses -/

/-- The greatest number that the limit stands for. -/
def Segment.lastOffset (s : Segment) : ℕ :=
  if s.granularity then 4096 * s.limit.toNat + 4095 else s.limit.toNat

/-- The offset is in the segment. A data segment that grows downwards lies above its limit. -/
def Segment.Contains (s : Segment) (offset : BitVec 32) : Prop :=
  if !s.type.getLsbD 3 && s.type.getLsbD 2 then
    s.lastOffset < offset.toNat ∧ (s.size ∨ offset.toNat < 65536)
  else offset.toNat ≤ s.lastOffset

instance (s : Segment) (offset : BitVec 32) : Decidable (s.Contains offset) :=
  inferInstanceAs (Decidable (ite _ _ _))

/-- The linear address of an offset. -/
def Segment.linear (s : Segment) (offset : BitVec 32) : Option (BitVec 32) :=
  if s.present ∧ s.codeOrData ∧ s.Contains offset then some (s.base + offset) else none

/-- A segment of the tool covers the address space. -/
theorem linear_gdtFlags (privilege : BitVec 16) {type : BitVec 16}
    (htype : type = segCodeExrd ∨ type = segDataRdwr) (offset : BitVec 32) :
    (decodeDescriptor (createDescriptor 0 0x000fffff (gdtFlags privilege type))).linear offset =
      some offset := by
  have hbits : ∀ i ∈ [4, 7, 15], (gdtFlags privilege type).getLsbD i = true := by
    intro i hi
    simp only [List.mem_cons, List.not_mem_nil, or_false] at hi
    rcases hi with rfl | rfl | rfl <;>
      simp [gdtFlags, segDesctype, segPres, segGran]
  have hup : (gdtFlags privilege type).getLsbD 2 = false := by
    rcases htype with rfl | rfl <;>
      simp [gdtFlags, segDesctype, segPres, segSavl, segLong, segSize, segGran, segPriv,
        segCodeExrd, segDataRdwr]
  have hcontains : (segmentOf 0 0x000fffff (gdtFlags privilege type)).Contains offset := by
    have hgran : (segmentOf 0 0x000fffff (gdtFlags privilege type)).granularity = true :=
      hbits 15 (by simp)
    have hlimit : (segmentOf 0 0x000fffff (gdtFlags privilege type)).limit.toNat = 1048575 := rfl
    have hlast : (segmentOf 0 0x000fffff (gdtFlags privilege type)).lastOffset = 4294967295 := by
      rw [Segment.lastOffset, if_pos hgran, hlimit]
    have hdown : (segmentOf 0 0x000fffff (gdtFlags privilege type)).type.getLsbD 2 = false := by
      simpa [segmentOf] using hup
    have hlt := offset.isLt
    rw [Segment.Contains, hlast, hdown, Bool.and_false, if_neg Bool.false_ne_true]
    omega
  rw [decodeDescriptor_createDescriptor, Segment.linear,
    if_pos ⟨hbits 7 (by simp), hbits 4 (by simp), hcontains⟩]
  exact congrArg some (BitVec.zero_add offset)

/-- The entries of the table that a register takes: those of its kind, whose privilege is that of the
CPU, or not above the current and the requested one for data. -/
def Selectable (register : SegmentRegister) (cpl rpl : BitVec 2) (index : ℕ) : Prop :=
  match register with
  | .code => index = 1 ∧ cpl = 0 ∧ rpl = 0 ∨ index = 3 ∧ cpl = 3
  | .stack => index = 2 ∧ cpl = 0 ∧ rpl = 0 ∨ index = 4 ∧ cpl = 3 ∧ rpl = 3
  | .data => index ∈ [1, 2] ∧ cpl = 0 ∧ rpl = 0 ∨ index ∈ [3, 4]

instance (register : SegmentRegister) (cpl rpl : BitVec 2) (index : ℕ) :
    Decidable (Selectable register cpl rpl index) :=
  match register with
  | .code => inferInstanceAs (Decidable (_ ∨ _))
  | .stack => inferInstanceAs (Decidable (_ ∨ _))
  | .data => inferInstanceAs (Decidable (_ ∨ _))

theorem filter_gdt (register : SegmentRegister) :
    ∀ cpl rpl : BitVec 2, ∀ index ∈ [1, 2, 3, 4],
      ((gdt[index]?.map decodeDescriptor).filter fun s =>
        s.present && s.codeOrData && s.Admits register cpl rpl) =
      if Selectable register cpl rpl index then gdt[index]?.map decodeDescriptor else none := by
  cases register with
  | code => decide
  | stack => decide
  | data => decide

/-- Every entry but the null descriptor covers the address space. -/
theorem linear_gdt {index : ℕ} (hindex : index ∈ [1, 2, 3, 4]) (offset : BitVec 32) :
    (gdt[index]?.map decodeDescriptor).bind (·.linear offset) = some offset := by
  rw [gdt_eq_gdtDescriptorMain]
  simp only [List.mem_cons, List.not_mem_nil, or_false] at hindex
  rcases hindex with rfl | rfl | rfl | rfl
  · exact linear_gdtFlags 0 (.inl rfl) offset
  · exact linear_gdtFlags 0 (.inr rfl) offset
  · exact linear_gdtFlags 3 (.inl rfl) offset
  · exact linear_gdtFlags 3 (.inr rfl) offset

/-- A selector leads to the offset where a register takes it, and nowhere else. -/
theorem linear_loadSelector (register : SegmentRegister) (cpl : BitVec 2) (selector : BitVec 16)
    (offset : BitVec 32) :
    (loadSelector gdt register cpl selector).bind (·.linear offset) =
      if selector.getLsbD 2 = false ∧
        Selectable register cpl (selector.extractLsb' 0 2) (selector.toNat / 8) then some offset
      else none := by
  rw [loadSelector]
  cases hti : selector.getLsbD 2 with
  | true => simp
  | false =>
    simp only [Bool.false_eq_true, or_false, true_and]
    generalize selector.toNat / 8 = index, selector.extractLsb' 0 2 = rpl
    by_cases hindex : index ∈ [1, 2, 3, 4]
    · have hpos : index ≠ 0 := by
        rintro rfl
        simp at hindex
      rw [if_neg hpos, filter_gdt register cpl rpl index hindex]
      split_ifs
      · exact linear_gdt hindex offset
      · rfl
    · simp only [List.mem_cons, List.not_mem_nil, or_false, not_or] at hindex
      have hnot : ¬Selectable register cpl rpl index := by
        cases register <;> simp [Selectable, hindex]
      rw [if_neg hnot]
      split_ifs with hnull
      · rfl
      · have hbehind : gdt[index]? = none := by
          rw [List.getElem?_eq_none_iff]
          simp only [gdt, List.length_cons, List.length_nil]
          omega
        rw [hbehind]
        rfl

/-- **The memory is flat.** The table is the one that the tool prints, and the CPU reads from a
descriptor what the tool was given. A register that takes an entry of the table gives each offset
its own linear address, and all other selectors lead nowhere. The kernel loads entries that its
registers take. -/
theorem gdt_flat :
    gdt = gdtDescriptorMain ∧
    (∀ base limit flag,
      decodeDescriptor (createDescriptor base limit flag) = segmentOf base limit flag) ∧
    (∀ register cpl selector offset,
      (loadSelector gdt register cpl selector).bind (·.linear offset) =
        if selector.getLsbD 2 = false ∧
          Selectable register cpl (selector.extractLsb' 0 2) (selector.toNat / 8) then some offset
        else none) ∧
    ∀ load ∈ asmResetSegmentSelectors, ∀ offset,
      (loadSelector gdt load.1 0 load.2).bind (·.linear offset) = some offset := by
  refine ⟨gdt_eq_gdtDescriptorMain, decodeDescriptor_createDescriptor, linear_loadSelector, ?_⟩
  intro load hload offset
  rw [linear_loadSelector, if_pos]
  revert load
  decide

end Ahos
