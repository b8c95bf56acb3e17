import Ahos.Mem.Pfa.Defs
import Mathlib.Logic.Function.Basic

/-!
# Paging

`paging.c` on a machine with physical memory. A memory access of the code goes
through the two-level walk of the processor once the paging bit of `CR0` is set,
and is physical before. The walk reads the tables from memory at every access:
the model has no TLB, which is what the invalidations of the code achieve. The
page size extension is off, so the size bit of a directory entry is ignored, and
the accessed and dirty bits that the processor sets are not modelled.
-/

namespace Ahos

/-- The machine that the paging code runs on. -/
structure Machine where
  /-- The 32-bit words of physical memory, by address. -/
  mem : ℕ → ℕ
  pfa : PfaMeta
  /-- `page_directory`. -/
  pageDirectory : ℕ
  /-- `paging_enabled`. -/
  pagingEnabled : Bool
  /-- The directory that `CR3` points to. -/
  cr3 : ℕ
  /-- The paging bit of `CR0`. -/
  cr0Pg : Bool

/-- `PDE_MASK_PRESENT` and `PTE_MASK_PRESENT`. -/
def maskPresent : ℕ := 0x1

/-- `PDE_MASK_ADDR` and `PTE_MASK_ADDR`. -/
def maskAddr : ℕ := 0xfffff000

/-- `PDE_RW_KERNEL_NOCACHE` and `PTE_RW_KERNEL_NOCACHE`. -/
def rwKernelNocache : ℕ := 0x1a

/-- `PG_CONSISTENT_MASK`. -/
def pgConsistentMask : ℕ := 0x1e

/-- `PD_INDEX`. -/
def pdIndex (virtAddr : ℕ) : ℕ := virtAddr >>> 22

/-- `PT_INDEX`. -/
def ptIndex (virtAddr : ℕ) : ℕ := (virtAddr >>> 12) &&& 0x3ff

/-- The present bit of an entry. -/
def isPresent (entry : ℕ) : Bool := entry &&& maskPresent ≠ 0

/-! ## The processor -/

/-- The two-level walk from the directory at `dir`: the physical address that the virtual
address `virt` stands for. -/
def translate (mem : ℕ → ℕ) (dir virt : ℕ) : Option ℕ :=
  let pde := mem (dir + 4 * pdIndex virt)
  if isPresent pde then
    let pte := mem ((pde &&& maskAddr) + 4 * ptIndex virt)
    if isPresent pte then some ((pte &&& maskAddr) + pageOffset virt) else none
  else none

/-- The physical address of an access. -/
def Machine.resolve (s : Machine) (addr : ℕ) : Outcome ℕ :=
  if s.cr0Pg then
    match translate s.mem s.cr3 addr with
    | some phys => .ok phys
    | none => .error (.pageFault addr)
  else .ok addr

/-- Reading a word. -/
def Machine.load (s : Machine) (addr : ℕ) : Outcome ℕ := do
  let phys ← s.resolve addr
  return s.mem phys

/-- Writing a word. -/
def Machine.store (s : Machine) (addr word : ℕ) : Outcome Machine := do
  let phys ← s.resolve addr
  return { s with mem := Function.update s.mem phys word }

/-! ## Mapping and unmapping -/

/-- The address of the page table for a directory entry in the window that the self-mapping
opens. -/
def windowTable (pdIndex : ℕ) : ℕ := 0xffc00000 + pdIndex * 4096

/-- `new_page_table`: the address of the table as the code accesses it, `0` on error. -/
def newPageTable (s : Machine) (pdIndex flags : ℕ) : Outcome (ℕ × Machine) := do
  let pde ← s.load (s.pageDirectory + 4 * pdIndex)
  if isPresent pde then
    return (0, s)
  else
    let (newPtPhys, pfa) ← pfaAlloc s.pfa 1
    let s := { s with pfa := pfa }
    if newPtPhys = 0 then
      return (0, s)
    else
      let pdeFlags := (flags &&& pgConsistentMask) ||| maskPresent
      let s ← s.store (s.pageDirectory + 4 * pdIndex) (pdeFlags ||| newPtPhys)
      let pageTable := if s.pagingEnabled then windowTable pdIndex else newPtPhys
      let s ← (List.range 1024).foldlM
        (fun s i => s.store (pageTable + 4 * i) (flags &&& (0xffffffff - maskPresent))) s
      return (pageTable, s)

/-- `map_page`. -/
def mapPage (s : Machine) (physAddr virtAddr flags : ℕ) : Outcome (Bool × Machine) :=
  if pageOffset physAddr ≠ 0 ∨ pageOffset virtAddr ≠ 0 ∨ flags &&& maskAddr ≠ 0 then
    .ok (false, s)
  else do
    let pde ← s.load (s.pageDirectory + 4 * pdIndex virtAddr)
    if isPresent pde then
      if flags &&& pgConsistentMask ≠ pde &&& pgConsistentMask then
        return (false, s)
      else
        let pageTable :=
          if s.pagingEnabled then windowTable (pdIndex virtAddr) else pde &&& maskAddr
        let pte ← s.load (pageTable + 4 * ptIndex virtAddr)
        if isPresent pte then
          panic "overwriting an already present mapping!"
        else
          let s ← s.store (pageTable + 4 * ptIndex virtAddr) (physAddr ||| flags ||| maskPresent)
          return (true, s)
    else
      let (pageTable, s) ← newPageTable s (pdIndex virtAddr) flags
      if pageTable = 0 then
        panic "failed to create new page table"
      else
        let s ← s.store (pageTable + 4 * ptIndex virtAddr) (physAddr ||| flags ||| maskPresent)
        return (true, s)

/-- `unmap_page`. -/
def unmapPage (s : Machine) (virtAddr : ℕ) : Outcome (Bool × Machine) :=
  if pageOffset virtAddr ≠ 0 then
    .ok (false, s)
  else if pdIndex virtAddr = 1023 then
    panic "cannot unmap page table/directory"
  else do
    let pde ← s.load (s.pageDirectory + 4 * pdIndex virtAddr)
    if isPresent pde then
      let pgTable := if s.pagingEnabled then windowTable (pdIndex virtAddr) else pde &&& maskAddr
      let pte ← s.load (pgTable + 4 * ptIndex virtAddr)
      if isPresent pte then
        let s ← s.store (pgTable + 4 * ptIndex virtAddr)
          (pte &&& (0xffffffff - (maskPresent ||| maskAddr)))
        return (true, s)
      else
        return (false, s)
    else
      return (false, s)

/-! ## Setup -/

/-- What `bootstrap_mapping` maps: the kernel image, the metadata of the page frame
allocator, and the module, whose length is `0` when there is none. -/
structure BootRanges where
  kernelStart : ℕ
  kernelEnd : ℕ
  pfaMeta : ℕ
  pfaMetaReservedPages : ℕ
  moduleAddr : ℕ
  moduleLen : ℕ
deriving DecidableEq, Repr

/-- A page that the boot cannot do without is mapped to itself. -/
def mapIdentity (s : Machine) (addr : ℕ) (msg : String) : Outcome Machine := do
  let (mapped, s) ← mapPage s addr addr rwKernelNocache
  if mapped then return s else panic msg

/-- The loop `for (addr = ...; addr < end; addr += PAGE_SIZE)` over pages to map. The counter
has 32 bits. The first argument bounds the number of rounds: there are `2 ^ 20` pages, and a
page that is mapped a second time makes `map_page` panic. -/
def mapRange (msg : String) : ℕ → Machine → ℕ → ℕ → Outcome Machine
  | 0, _, _, _ => .error .loops
  | fuel + 1, s, addr, endAddr =>
    if addr < endAddr then do
      let s ← mapIdentity s addr msg
      mapRange msg fuel s (Word32.add addr 4096) endAddr
    else .ok s

/-- The body of the loop of `bootstrap_mapping` over its ranges. -/
def mapBootstrapRange (s : Machine) (range : ℕ × ℕ) : Outcome Machine :=
  if pageOffset range.1 ≠ 0 then
    panic "starting range is not page-aligned"
  else
    mapRange "failed to map 0x%p" 0x100001 s range.1 (pageAlign (Word32.add range.2 1))

/-- `pfa_map_metadata`. -/
def pfaMapMetadata (env : BootRanges) (s : Machine) : Outcome Machine :=
  (List.range env.pfaMetaReservedPages).foldlM
    (fun s i => mapIdentity s (Word32.add env.pfaMeta (Word32.mul i 4096))
      "failed to map page 0x%p") s

/-- `phys_mem_map_map_module`. -/
def physMemMapMapModule (env : BootRanges) (s : Machine) : Outcome Machine :=
  if env.moduleLen = 0 then .ok s
  else
    mapRange "failed to map page 0x%p" 0x100001 s (pageMask env.moduleAddr)
      (Word32.add env.moduleAddr env.moduleLen)

/-- `bootstrap_mapping`. -/
def bootstrapMapping (env : BootRanges) (s : Machine) : Outcome Machine := do
  let s ← [(env.kernelStart, env.kernelEnd), (0xa0000, 0xfffff)].foldlM mapBootstrapRange s
  let s ← pfaMapMetadata env s
  physMemMapMapModule env s

/-- `paging_setup`. -/
def pagingSetup (env : BootRanges) (s : Machine) : Outcome Machine := do
  let (pgdPhysAddr, pfa) ← pfaAlloc s.pfa 1
  if pgdPhysAddr = 0 then
    panic "cannot allocate page_directory"
  else
    let s := { s with pfa := pfa }
    let s ← (List.range 1024).foldlM
      (fun s entry => s.store (pgdPhysAddr + 4 * entry) rwKernelNocache) s
    let s ← s.store (pgdPhysAddr + 4 * 1023) (pgdPhysAddr ||| rwKernelNocache ||| maskPresent)
    let s ← bootstrapMapping env { s with pageDirectory := pgdPhysAddr }
    if pageOffset pgdPhysAddr ≠ 0 then
      panic "failed to load the new page directory"
    else
      return { s with
        cr3 := pgdPhysAddr, pageDirectory := 0xfffff000, cr0Pg := true, pagingEnabled := true }

end Ahos
