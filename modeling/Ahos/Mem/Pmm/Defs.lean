import Ahos.Lib.BubbleSort
import Ahos.Mem.Memory

/-!
# The physical memory map

`phys_mem_map.c`: the multiboot memory map is sorted, a place for the physical
memory map is searched, the map is filled from the multiboot map, and the kernel,
the map itself and the optional module are reserved in it.

The multiboot information block is modelled by its fields, by the entries that
`mmap_for_each` visits and by the module structure it points to. A map of the
kernel is the list of its entries, so that `len` is the length of the list.
-/

namespace Ahos

/-- `enum phys_mmap_type`; any other code of a multiboot entry is `other`. -/
inductive MmapType where
  | available
  | reserved
  | acpi
  | nvs
  | badram
  | other (code : ℕ)
deriving DecidableEq, Repr

/-- The type with a given code. -/
def MmapType.ofCode : ℕ → MmapType
  | 1 => .available
  | 2 => .reserved
  | 3 => .acpi
  | 4 => .nvs
  | 5 => .badram
  | code => .other code

/-- `struct phys_mmap_entry`. -/
structure PhysMmapEntry where
  addr : ℕ
  len : ℕ
  type : MmapType
deriving DecidableEq, Repr

/-- `struct phys_mmap`. -/
abbrev PhysMmap := List PhysMmapEntry

/-- `multiboot_memory_map_t`: `size` has 32 bits, `addr` and `len` have 64. -/
structure MultibootMmapEntry where
  size : ℕ
  addr : ℕ
  len : ℕ
  type : ℕ
deriving DecidableEq, Repr

/-- `multiboot_module_t`. -/
structure MultibootModule where
  modStart : ℕ
  modEnd : ℕ
deriving DecidableEq, Repr

/-- `multiboot_info_t` at the address `addr`, with the structures it points to. -/
structure MultibootInfo where
  addr : ℕ
  flags : ℕ
  modsCount : ℕ
  modsAddr : ℕ
  mmapLength : ℕ
  mmapAddr : ℕ
  mmap : List MultibootMmapEntry
  mod : MultibootModule
deriving DecidableEq, Repr

/-- The image of the kernel, `[kernel_start, kernel_end)`. -/
structure KernelImage where
  kernelStart : ℕ
  kernelEnd : ℕ
deriving DecidableEq, Repr

/-- `MULTIBOOT_INFO_MODS`. -/
def multibootInfoMods : ℕ := 0x8

/-- `MULTIBOOT_INFO_MEM_MAP`. -/
def multibootInfoMemMap : ℕ := 0x40

/-- `MAX_RESERVED`: kernel, map and module. -/
def maxReserved : ℕ := 3

/-- `mbi->flags & MULTIBOOT_INFO_MODS`. -/
def MultibootInfo.hasMods (mbi : MultibootInfo) : Bool := mbi.flags &&& multibootInfoMods ≠ 0

/-! ## Splitting and reserving -/

/-- `collides`, with 32-bit ends. -/
def collides (srcAddr srcLen dstAddr dstLen : ℕ) : Bool :=
  srcAddr < Word32.add dstAddr dstLen ∧ Word32.add srcAddr srcLen > dstAddr

/-- The end of an entry as the code computes it. -/
def PhysMmapEntry.endAddr (e : PhysMmapEntry) : ℕ := Word32.add e.addr e.len

/-- `split_region`: `none` is the failure, which leaves the map alone. -/
def splitRegion (pmm : PhysMmap) (entry addr : ℕ) : Option PhysMmap :=
  match pmm[entry]? with
  | none => none
  | some pmme =>
    if addr ≤ pmme.addr ∨ addr ≥ pmme.endAddr then none
    else
      let next : PhysMmapEntry :=
        { addr := addr, len := Word32.sub pmme.len (Word32.sub addr pmme.addr), type := pmme.type }
      some (pmm.take entry ++
        { pmme with len := Word32.sub pmme.len next.len } :: next :: pmm.drop (entry + 1))

/-- The lengths of the two parts, as `split_region` computes them. -/
theorem PhysMmapEntry.split_lengths {e : PhysMmapEntry} {x : ℕ} (hlo : e.addr < x)
    (hhi : x < e.endAddr) :
    Word32.sub x e.addr = x - e.addr ∧
      Word32.sub e.len (Word32.sub e.len (x - e.addr)) = x - e.addr := by
  have hend : e.endAddr < 4294967296 := Word32.add_lt _ _
  exact ⟨Word32.sub_of_le (by omega) (by omega), Word32.sub_sub_self _ (by omega)⟩

/-- What `split_region` does: the entry is cut in two at an address strictly inside. -/
theorem splitRegion_eq_some {pmm pmm' : PhysMmap} {entry x : ℕ}
    (h : splitRegion pmm entry x = some pmm') :
    ∃ l e r, pmm = l ++ e :: r ∧ entry = l.length ∧ e.addr < x ∧ x < e.endAddr ∧
      pmm' = l ++ ⟨e.addr, x - e.addr, e.type⟩ ::
        ⟨x, Word32.sub e.len (x - e.addr), e.type⟩ :: r := by
  unfold splitRegion at h
  split at h
  · cases h
  · next e he =>
    split at h
    · cases h
    · next hx =>
      obtain ⟨hlt, hget⟩ := List.getElem?_eq_some_iff.mp he
      obtain ⟨hsub, hleft⟩ := PhysMmapEntry.split_lengths (e := e) (x := x) (by omega) (by omega)
      refine ⟨pmm.take entry, e, pmm.drop (entry + 1), ?_, ?_, by omega, by omega, ?_⟩
      · rw [← hget, ← List.drop_eq_getElem_cons hlt, List.take_append_drop]
      · rw [List.length_take]
        omega
      · simp only [hsub, hleft, Option.some.injEq] at h
        exact h.symm

/-- The right part of a split ends where the entry ended. -/
theorem endAddr_split_right {e : PhysMmapEntry} {x : ℕ} (hlo : e.addr < x) :
    Word32.add x (Word32.sub e.len (x - e.addr)) = e.endAddr := by
  simp only [PhysMmapEntry.endAddr, Word32.add, Word32.sub, Word32.wrap] at *
  omega

/-- The number of entries that contain `x` strictly inside. -/
def cuts (pmm : PhysMmap) (x : ℕ) : ℕ := pmm.countP fun e => e.addr < x ∧ x < e.endAddr

/-- A split at `x` leaves one entry less that contains `x` strictly inside, and does
not add one for any other address. -/
theorem cuts_splitRegion {pmm pmm' : PhysMmap} {entry x : ℕ}
    (h : splitRegion pmm entry x = some pmm') :
    cuts pmm' x < cuts pmm x ∧ ∀ y, cuts pmm' y ≤ cuts pmm y := by
  obtain ⟨l, e, r, rfl, -, hlo, hhi, rfl⟩ := splitRegion_eq_some h
  have hend : e.endAddr < 4294967296 := Word32.add_lt _ _
  have hleft : Word32.add e.addr (x - e.addr) = x := by
    rw [Word32.add_of_lt (by omega)]
    omega
  have hright := endAddr_split_right hlo
  have hcuts : ∀ y, cuts (l ++ ⟨e.addr, x - e.addr, e.type⟩ ::
      ⟨x, Word32.sub e.len (x - e.addr), e.type⟩ :: r) y =
      cuts l y + (cuts r y + (if x < y ∧ y < e.endAddr then 1 else 0) +
        if e.addr < y ∧ y < x then 1 else 0) := by
    intro y
    simp only [cuts, List.countP_append, List.countP_cons, PhysMmapEntry.endAddr, hleft, hright,
      decide_eq_true_eq]
    rfl
  have hold : ∀ y, cuts (l ++ e :: r) y =
      cuts l y + (cuts r y + if e.addr < y ∧ y < e.endAddr then 1 else 0) := by
    intro y
    simp only [cuts, List.countP_append, List.countP_cons, decide_eq_true_eq]
  refine ⟨?_, fun y => ?_⟩
  · rw [hcuts, hold]
    split_ifs <;> omega
  · rw [hcuts, hold]
    split_ifs <;> omega

/-- The search of `reserve_region`: the first available entry that contains the range. -/
def findAvailable (pmm : PhysMmap) (addr len : ℕ) : Option ℕ :=
  pmm.findIdx? fun e =>
    e.type = .available ∧ e.addr ≤ addr ∧ Word32.add addr len ≤ e.endAddr

/-- The loop of `reserve_region` from `retry` on: the result and the map it leaves. -/
def reserveLoop (pmm : PhysMmap) (addr len : ℕ) : Bool × PhysMmap :=
  match findAvailable pmm addr len with
  | none => (false, pmm)
  | some entry =>
    match pmm[entry]? with
    | none => (false, pmm)
    | some pmme =>
      if pmme.len = len then (true, pmm.set entry { pmme with type := .reserved })
      else
        let splitAddr := if addr > pmme.addr then addr else Word32.add addr len
        match _h : splitRegion pmm entry splitAddr with
        | none => (false, pmm)
        | some pmm' => reserveLoop pmm' addr len
termination_by cuts pmm addr + cuts pmm (Word32.add addr len)
decreasing_by
  obtain ⟨hlt, hle⟩ := cuts_splitRegion _h
  by_cases ha : addr > pmme.addr
  · simp only [splitAddr, dif_pos ha] at hlt
    have := hle (Word32.add addr len)
    omega
  · simp only [splitAddr, dif_neg ha] at hlt
    have := hle addr
    omega

/-- The globals of `phys_mem_map.c` that the reservations touch: the map and the
static counter of `reserve_region`. -/
structure PhysMemMap where
  entries : PhysMmap
  nbReserved : ℕ
deriving DecidableEq, Repr

/-- `reserve_region`. -/
def reserveRegion (g : PhysMemMap) (addr len : ℕ) : Bool × PhysMemMap :=
  if g.nbReserved = maxReserved then (false, g)
  else
    match reserveLoop g.entries addr len with
    | (true, entries) => (true, ⟨entries, g.nbReserved + 1⟩)
    | (false, entries) => (false, ⟨entries, g.nbReserved⟩)

/-! ## Size and place of the map -/

/-- `phys_mem_map_size`. -/
def physMemMapSize (mbi : MultibootInfo) : ℕ :=
  let nbEntries := mbi.mmapLength / 24
  let nbEntries := Word32.add nbEntries 2
  let nbEntries := Word32.add nbEntries (if mbi.hasMods then 1 else 0)
  let nbEntries := Word32.mul nbEntries 3
  Word32.add 4 (Word32.mul nbEntries 12)

/-- `sort_multiboot_mmap`, on entries that are 24 bytes apart. -/
def sortMultibootMmap (mbi : MultibootInfo) : MultibootInfo :=
  { mbi with mmap := BubbleSort.sort MultibootMmapEntry.addr (mbi.mmapLength / 24) mbi.mmap }

/-- `seg_len` of `find_pmm_location`. -/
def segLen (e : MultibootMmapEntry) : ℕ :=
  if e.len >>> 32 ≠ 0 then Word32.add (Word32.sub 0xffffffff (e.addr &&& 0xffffffff)) 1
  else e.len &&& 0xffffffff

/-- One step of the inner loop of `find_pmm_location`. -/
def avoidRegion (pmmSize pmmAddr : ℕ) (entry : PhysMmapEntry) : ℕ :=
  if collides pmmAddr pmmSize entry.addr entry.len then
    pageAlign (Word32.add entry.addr entry.len)
  else pmmAddr

/-- The place that `find_pmm_location` tries in one segment. -/
def pmmCandidate (kernel : KernelImage) (mbr : PhysMmap) (pmmSize segAddr : ℕ) : ℕ :=
  let pmmAddr := pageAlign (Word32.add kernel.kernelEnd 1)
  let pmmAddr := if pmmAddr < segAddr then segAddr else pmmAddr
  mbr.foldl (avoidRegion pmmSize) pmmAddr

/-- The loop of `find_pmm_location` over the sorted multiboot map; `none` is `-1`. -/
def findPmmSegment (kernel : KernelImage) (mbr : PhysMmap) (pmmSize : ℕ) :
    List MultibootMmapEntry → Option ℕ
  | [] => none
  | e :: rest =>
    if MmapType.ofCode e.type ≠ .available then findPmmSegment kernel mbr pmmSize rest
    else if e.addr >>> 32 ≠ 0 then findPmmSegment kernel mbr pmmSize rest
    else
      let segAddr := e.addr &&& 0xffffffff
      if segAddr < 0x100000 then findPmmSegment kernel mbr pmmSize rest
      else
        let pmmAddr := pmmCandidate kernel mbr pmmSize segAddr
        if Word32.add pmmAddr pmmSize ≤ Word32.add segAddr (segLen e) then some pmmAddr
        else findPmmSegment kernel mbr pmmSize rest

/-- `find_pmm_location`, together with the multiboot map it sorts. -/
def findPmmLocation (kernel : KernelImage) (mbi : MultibootInfo) (mbr : PhysMmap)
    (pmmSize : ℕ) : Option ℕ × MultibootInfo :=
  if pmmSize = 0 then (none, mbi)
  else
    let mbi := sortMultibootMmap mbi
    (findPmmSegment kernel mbr pmmSize mbi.mmap, mbi)

/-! ## Filling the map -/

/-- `sort_phys_mmap`. -/
def sortPhysMmap (pmm : PhysMmap) : PhysMmap :=
  BubbleSort.sort PhysMmapEntry.addr pmm.length pmm

/-- `identify_multiboot_regions`. The regions carry no type. -/
def identifyMultibootRegions (mbi : MultibootInfo) : PhysMmap :=
  let info : PhysMmap :=
    [⟨mbi.addr, 120, .other 0⟩, ⟨mbi.mmapAddr, mbi.mmapLength, .other 0⟩]
  let mods : PhysMmap :=
    if mbi.hasMods then
      [⟨mbi.modsAddr, 16, .other 0⟩,
        ⟨mbi.mod.modStart, Word32.sub mbi.mod.modEnd mbi.mod.modStart, .other 0⟩]
    else []
  sortPhysMmap (info ++ mods)

/-- `fill_phys_mmap`: entries above 4 GB are dropped, lengths of 4 GB and more are cut. -/
def fillPhysMmap (mmap : List MultibootMmapEntry) : PhysMmap :=
  mmap.filterMap fun e =>
    if e.addr >>> 32 ≠ 0 then none
    else
      some { addr := e.addr &&& 0xffffffff, len := segLen e, type := MmapType.ofCode e.type }

/-! ## Initialisation -/

/-- What `phys_mem_map_init` leaves behind on success: the map, its place, and the
module. -/
structure PhysMemMapInit where
  physMemMap : PhysMmap
  pmmAddr : ℕ
  pmmSize : ℕ
  moduleAddr : ℕ
  moduleLen : ℕ
deriving DecidableEq, Repr

/-- The reservations at the end of `phys_mem_map_init`. -/
def reserveAll (kernel : KernelImage) (mbi : MultibootInfo) (pmmAddr pmmSize : ℕ) :
    Option PhysMemMapInit :=
  match reserveRegion ⟨fillPhysMmap mbi.mmap, 0⟩ kernel.kernelStart
      (Word32.sub kernel.kernelEnd kernel.kernelStart) with
  | (false, _) => none
  | (true, g) =>
    match reserveRegion g pmmAddr pmmSize with
    | (false, _) => none
    | (true, g) =>
      if mbi.hasMods then
        let len := Word32.sub mbi.mod.modEnd mbi.mod.modStart
        match reserveRegion g mbi.mod.modStart len with
        | (false, _) => none
        | (true, g) => some ⟨g.entries, pmmAddr, pmmSize, mbi.mod.modStart, len⟩
      else
        some ⟨g.entries, pmmAddr, pmmSize, 0, 0⟩

/-- The check of the modules in `phys_mem_map_init`: more than one module is refused, and
the flag is dropped when there is no module. -/
def checkMods (mbi : MultibootInfo) : Option MultibootInfo :=
  if mbi.hasMods then
    if mbi.modsCount > 0 then
      if mbi.modsCount ≠ 1 then none else some mbi
    else
      some { mbi with flags := mbi.flags &&& (0xffffffff - multibootInfoMods) }
  else some mbi

/-- `phys_mem_map_init`: `none` is the result `false`. -/
def physMemMapInit (kernel : KernelImage) (mbi : MultibootInfo) : Option PhysMemMapInit :=
  if mbi.flags &&& multibootInfoMemMap = 0 then none
  else
    match checkMods mbi with
    | none => none
    | some mbi =>
      let mbRegions := identifyMultibootRegions mbi
      let pmmSize := physMemMapSize mbi
      match findPmmLocation kernel mbi mbRegions pmmSize with
      | (none, _) => none
      | (some pmmAddr, mbi) =>
        if pmmAddr = 0xffffffff then none
        else reserveAll kernel mbi pmmAddr pmmSize

end Ahos
