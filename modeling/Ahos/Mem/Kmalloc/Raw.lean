import Ahos.Kernel.List
import Ahos.Lib.WordMemory
import Ahos.Mem.Kmalloc.Defs

/-!
# The fine-grained allocator in memory

`kmalloc.c` once more, now with its data where the code has it: the headers of the blocks and
their chunkmaps at the start of their page frames, the metadata of the big allocations in
chunks of blocks, both linked into lists whose heads are variables of the kernel. Every access
goes through the page tables.
-/

namespace Ahos

/-- Reading a byte. -/
def Machine.loadByte (s : Machine) (addr : ℕ) : Outcome ℕ := do
  let word ← s.load (WordMemory.wordAddr addr)
  return WordMemory.byteOf word (addr % 4)

/-- Writing a byte. -/
def Machine.storeByte (s : Machine) (addr byte : ℕ) : Outcome Machine := do
  let word ← s.load (WordMemory.wordAddr addr)
  s.store (WordMemory.wordAddr addr) (WordMemory.setByteOf word (addr % 4) byte)

namespace Raw

/-! ## Fields -/

/-- The addresses of `aha_block_list` and `aha_big_list`. -/
structure AhaLists where
  ahaBlockList : ℕ
  ahaBigList : ℕ
deriving DecidableEq, Repr

/-- `&block->tot_elts`; `elt_size` is the first field. -/
def totElts (block : ℕ) : ℕ := block + 4

/-- `&block->nb_frees`. -/
def nbFrees (block : ℕ) : ℕ := block + 8

/-- `&block->first_ptr`. -/
def firstPtr (block : ℕ) : ℕ := block + 12

/-- `&block->list`. -/
def blockNode (block : ℕ) : ℕ := block + 16

/-- `block->chunkmap`. -/
def chunkmap (block : ℕ) : ℕ := block + sizeofAhaBlock

/-- `&meta->ptr`; `size` is the first field. -/
def metaPtr (bigMeta : ℕ) : ℕ := bigMeta + 4

/-- `&meta->list`. -/
def metaNode (bigMeta : ℕ) : ℕ := bigMeta + 8

/-- `CHUNK_FREE`. -/
def chunkFree : ℕ := 0

/-- `CHUNK_USED`. -/
def chunkUsed : ℕ := 1

/-- `list_entry` for a block. -/
def blockOf (node : ℕ) : ℕ := Word32.sub node 16

/-- `list_entry` for the metadata of a big allocation. -/
def metaOf (node : ℕ) : ℕ := Word32.sub node 8

/-! ## Allocation -/

/-- The end of `new_block`: the metadata of the block is written into its page frame. -/
def initBlock (lists : AhaLists) (s : Machine) (block eltSize nbElts : ℕ) : Outcome Machine := do
  let s ← s.store block eltSize
  let s ← s.store (totElts block) nbElts
  let s ← s.store (nbFrees block) nbElts
  let s ← s.store (firstPtr block) (alignFirstPtr block nbElts)
  let s ← listAdd s (blockNode block) lists.ahaBlockList
  -- `memset`
  (List.range nbElts).foldlM (fun s i => s.storeByte (chunkmap block + i) chunkFree) s

/-- `new_block`. -/
def newBlock (lists : AhaLists) (s : Machine) (eltSize : ℕ) : Outcome (ℕ × Machine) :=
  let nbElts := nbElts eltSize
  if nbElts = 0 then
    panic "block cannot even hold a single element"
  else do
    let (block, pfa) ← pfaAlloc s.pfa 1
    let s := { s with pfa := pfa }
    if block = 0 then
      return (0, s)
    else
      let s ← mapIdentity s block notImplemented
      let s ← initBlock lists s block eltSize nbElts
      return (block, s)

/-- `find_non_full_block`: the block, or `NULL`. -/
def findNonFullBlock (lists : AhaLists) (s : Machine) (size : ℕ) : Outcome ℕ := do
  if ← listEmpty s lists.ahaBlockList then
    return 0
  else
    let first ← s.load (lists.ahaBlockList + 4)
    let found ← listForEach s lists.ahaBlockList (fun node => do
      let eltSize ← s.load (blockOf node)
      if eltSize = size then
        let frees ← s.load (nbFrees (blockOf node))
        return if frees > 0 then some (blockOf node) else none
      else
        return none) listRounds first
    return found.getD 0

/-- The search of `kmalloc` for a free chunk, among the last `left` chunks of the block. -/
def findFreeChunk (s : Machine) (block tot : ℕ) : ℕ → Outcome (Option ℕ)
  | 0 => .ok none
  | left + 1 => do
    let chunk := tot - (left + 1)
    let state ← s.loadByte (chunkmap block + chunk)
    if state = chunkFree then return some chunk
    else findFreeChunk s block tot left

/-- The end of `kmalloc`: a chunk of the block is taken. -/
def takeChunk (s : Machine) (block : ℕ) : Outcome (ℕ × Machine) := do
  let tot ← s.load (totElts block)
  match ← findFreeChunk s block tot tot with
  | none => panic "found block does not have any free chunk!"
  | some chunk =>
    let s ← s.storeByte (chunkmap block + chunk) chunkUsed
    let frees ← s.load (nbFrees block)
    let s ← s.store (nbFrees block) (Word32.sub frees 1)
    let first ← s.load (firstPtr block)
    let eltSize ← s.load block
    return (Word32.add first (Word32.mul chunk eltSize), s)

/-- `kmalloc` for a rounded size below a page. -/
def smallAlloc (lists : AhaLists) (s : Machine) (size : ℕ) : Outcome (ℕ × Machine) := do
  let block ← findNonFullBlock lists s size
  if block ≠ 0 then
    takeChunk s block
  else
    let (block, s) ← newBlock lists s size
    if block = 0 then
      return (0, s)
    else
      takeChunk s block

/-- The part of `big_alloc` that fills the metadata and links it. -/
def linkMeta (lists : AhaLists) (s : Machine) (bigMeta size headPage : ℕ) : Outcome Machine := do
  let s ← s.store bigMeta size
  let s ← s.store (metaPtr bigMeta) headPage
  listAdd s (metaNode bigMeta) lists.ahaBigList

/-- `big_alloc`, with its call of `kmalloc` for the metadata. -/
def bigAlloc (lists : AhaLists) (s : Machine) (size : ℕ) : Outcome (ℕ × Machine) := do
  let nbPages := size / 4096
  let (headPage, pfa) ← pfaAlloc s.pfa nbPages
  let s := { s with pfa := pfa }
  if headPage = badPage then
    return (0, s)
  else
    let (bigMeta, s) ← smallAlloc lists s (roundedSize sizeofAhaBigMeta)
    if bigMeta = 0 then
      let pfa ← pfaFree s.pfa headPage
      return (0, { s with pfa := pfa })
    else
      let s ← linkMeta lists s bigMeta size headPage
      let s ← mapFrames s headPage nbPages
      return (headPage, s)

/-- `kmalloc`. -/
def kmalloc (lists : AhaLists) (s : Machine) (size : ℕ) : Outcome (ℕ × Machine) :=
  if size = 0 then
    return (0, s)
  else if roundedSize size ≥ 4096 then
    bigAlloc lists s (roundedSize size)
  else
    smallAlloc lists s (roundedSize size)

/-! ## Release -/

/-- The first loop of `kfree`: the block whose chunks reach the address. -/
def findBlock (lists : AhaLists) (s : Machine) (ptr : ℕ) : Outcome (Option ℕ) := do
  if ← listEmpty s lists.ahaBlockList then
    return none
  else
    let first ← s.load (lists.ahaBlockList + 4)
    listForEach s lists.ahaBlockList (fun node => do
      let start ← s.load (firstPtr (blockOf node))
      return if ptr ≥ start ∧ ptr < Word32.add (blockOf node) 4096 then some (blockOf node)
        else none) listRounds first

/-- The second loop of `kfree`: the big allocation at the address. -/
def findBig (lists : AhaLists) (s : Machine) (ptr : ℕ) : Outcome (Option ℕ) := do
  if ← listEmpty s lists.ahaBigList then
    return none
  else
    let first ← s.load (lists.ahaBigList + 4)
    listForEach s lists.ahaBigList (fun node => do
      let head ← s.load (metaPtr (metaOf node))
      return if head = ptr then some (metaOf node) else none) listRounds first

/-- The end of `kfree`: the chunk at `ptr` of the block is released. -/
def releaseChunk (s : Machine) (block ptr : ℕ) : Outcome Machine := do
  let tot ← s.load (totElts block)
  let first ← s.load (firstPtr block)
  let eltSize ← s.load block
  match (List.range tot).find? fun chunk =>
      Word32.add first (Word32.mul chunk eltSize) = ptr with
  | none => panic "ptr (0x%p) hasn't matching chunk in block 0x%p"
  | some chunk =>
    let state ← s.loadByte (chunkmap block + chunk)
    if state = chunkFree then
      panic "double-free detected!"
    else
      let s ← s.storeByte (chunkmap block + chunk) chunkFree
      let frees ← s.load (nbFrees block)
      s.store (nbFrees block) (Word32.add frees 1)

/-- `kfree`, with the calls `kfree` of the metadata at most `calls` deep. -/
def kfree (lists : AhaLists) : ℕ → Machine → ℕ → Outcome Machine
  | 0, _, _ => .error .loops
  | calls + 1, s, ptr =>
    if ptr = 0 then
      panic "freeing NULL pointer"
    else do
      match ← findBlock lists s ptr with
      | some block => releaseChunk s block ptr
      | none =>
        match ← findBig lists s ptr with
        | none => panic "ptr (0x%p) does not belong to any block or big alloc"
        | some bigMeta =>
          -- `big_free`; the loop over the pages leaves `meta->size` and `meta->ptr` alone
          if bigMeta = 0 then
            panic "invalid argument"
          else
            let size ← s.load bigMeta
            let head ← s.load (metaPtr bigMeta)
            let s ← unmapFrames s head (size / 4096)
            let pfa ← pfaFree s.pfa head
            let s := { s with pfa := pfa }
            let s ← listDel s (metaNode bigMeta)
            kfree lists calls s bigMeta

end Raw

end Ahos
