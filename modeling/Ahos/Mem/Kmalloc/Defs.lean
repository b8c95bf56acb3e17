import Ahos.Mem.Paging.Defs

/-!
# The fine-grained allocator

`kmalloc.c`: small allocations are chunks of blocks, and a block is one page frame
with its own metadata; big allocations are page frames with metadata that the allocator
takes from itself. A block and the metadata of a big allocation are records that carry
the address they are stored at, and the two linked lists are lists of these records in
the order of the links. A pointer to a block is its position in the list, and `NULL`
is `0`.
-/

namespace Ahos

/-- `chunk_type_t`. -/
inductive ChunkType where
  | free
  | used
deriving DecidableEq, Repr

/-- `struct aha_block` at the address `addr`. -/
structure AhaBlock where
  addr : ℕ
  eltSize : ℕ
  totElts : ℕ
  nbFrees : ℕ
  firstPtr : ℕ
  chunkmap : List ChunkType
deriving DecidableEq, Repr

/-- `struct aha_big_meta` at the address `addr`. -/
structure AhaBigMeta where
  addr : ℕ
  size : ℕ
  ptr : ℕ
deriving DecidableEq, Repr

/-- The state of the allocator and of the machine below it. -/
structure Heap where
  machine : Machine
  /-- `aha_block_list`. -/
  ahaBlockList : List AhaBlock
  /-- `aha_big_list`. -/
  ahaBigList : List AhaBigMeta

/-- `sizeof(struct aha_block)`. -/
def sizeofAhaBlock : ℕ := 24

/-- `sizeof(struct aha_big_meta)`. -/
def sizeofAhaBigMeta : ℕ := 16

/-! ## Blocks -/

/-- `next_highest_power_of_two`. -/
def nextHighestPowerOfTwo (size : ℕ) : ℕ :=
  let size := Word32.sub size 1
  let size := size ||| size >>> 1
  let size := size ||| size >>> 2
  let size := size ||| size >>> 4
  let size := size ||| size >>> 8
  let size := size ||| size >>> 16
  Word32.add size 1

/-- The number of elements that `new_block` computes. -/
def nbElts (eltSize : ℕ) : ℕ := (4096 - sizeofAhaBlock - 4) / Word32.add 1 eltSize

/-- `first_ptr` of a new block: behind the chunkmap, at the next pointer boundary. -/
def alignFirstPtr (block nbElts : ℕ) : ℕ :=
  let firstPtr := Word32.add (Word32.add block sizeofAhaBlock) nbElts
  if firstPtr &&& 3 ≠ 0 then Word32.add firstPtr (Word32.sub 4 (firstPtr &&& 3)) else firstPtr

/-- `new_block`: the address of the block, which is the first of the list, or `NULL`. -/
def newBlock (h : Heap) (eltSize : ℕ) : Outcome (ℕ × Heap) :=
  let nbElts := nbElts eltSize
  if nbElts = 0 then
    panic "block cannot even hold a single element"
  else do
    let (block, pfa) ← pfaAlloc h.machine.pfa 1
    let machine := { h.machine with pfa := pfa }
    if block = 0 then
      return (0, { h with machine := machine })
    else
      let machine ← mapIdentity machine block notImplemented
      let newBlock : AhaBlock :=
        { addr := block
          eltSize := eltSize
          totElts := nbElts
          nbFrees := nbElts
          firstPtr := alignFirstPtr block nbElts
          chunkmap := List.replicate nbElts .free }
      return (block, { h with machine := machine, ahaBlockList := newBlock :: h.ahaBlockList })

/-- `find_non_full_block`. -/
def findNonFullBlock (blocks : List AhaBlock) (size : ℕ) : Option ℕ :=
  blocks.findIdx? fun block => block.eltSize = size ∧ block.nbFrees > 0

/-- The first free chunk of a block. -/
def AhaBlock.findFree (block : AhaBlock) : Option ℕ :=
  (List.range block.totElts).find? fun chunk => block.chunkmap[chunk]? = some .free

/-- The address of a chunk, in 32 bits. -/
def AhaBlock.chunkPtr (block : AhaBlock) (chunk : ℕ) : ℕ :=
  Word32.add block.firstPtr (Word32.mul chunk block.eltSize)

/-- The end of `kmalloc`: a chunk of the block is taken. -/
def takeChunk (h : Heap) (i : ℕ) : Outcome (ℕ × Heap) := do
  let block ← readCell h.ahaBlockList i
  match block.findFree with
  | none => panic "found block does not have any free chunk!"
  | some chunk =>
    let block' : AhaBlock :=
      { block with
        chunkmap := block.chunkmap.set chunk .used
        nbFrees := Word32.sub block.nbFrees 1 }
    return (block.chunkPtr chunk, { h with ahaBlockList := h.ahaBlockList.set i block' })

/-! ## Allocation -/

/-- The size that `kmalloc` allocates for a request of at least one byte. -/
def roundedSize (size : ℕ) : ℕ := nextHighestPowerOfTwo (if size < 8 then 8 else size)

/-- The loop of `big_alloc` that maps the page frames. -/
def mapFrames (machine : Machine) (headPage nbPages : ℕ) : Outcome Machine :=
  (List.range nbPages).foldlM
    (fun machine i =>
      mapIdentity machine (Word32.add headPage (Word32.mul i 4096)) notImplemented) machine

/-- `kmalloc` for a rounded size below a page. -/
def smallAlloc (h : Heap) (size : ℕ) : Outcome (ℕ × Heap) :=
  match findNonFullBlock h.ahaBlockList size with
  | some i => takeChunk h i
  | none => do
    let (block, h) ← newBlock h size
    if block = 0 then
      return (0, h)
    else
      takeChunk h 0

/-- `big_alloc`. Its call of `kmalloc` for the metadata is one for a rounded size below a page,
see `kmalloc_bigMeta`. -/
def bigAlloc (h : Heap) (size : ℕ) : Outcome (ℕ × Heap) := do
  let nbPages := size / 4096
  let (headPage, pfa) ← pfaAlloc h.machine.pfa nbPages
  let h := { h with machine := { h.machine with pfa := pfa } }
  if headPage = badPage then
    return (0, h)
  else
    let (metaPtr, h) ← smallAlloc h (roundedSize sizeofAhaBigMeta)
    if metaPtr = 0 then
      let pfa ← pfaFree h.machine.pfa headPage
      return (0, { h with machine := { h.machine with pfa := pfa } })
    else
      let bigMeta : AhaBigMeta := { addr := metaPtr, size := size, ptr := headPage }
      let machine ← mapFrames h.machine headPage nbPages
      return (headPage, { h with machine := machine, ahaBigList := bigMeta :: h.ahaBigList })

/-- `kmalloc`. -/
def kmalloc (h : Heap) (size : ℕ) : Outcome (ℕ × Heap) :=
  if size = 0 then
    return (0, h)
  else if roundedSize size ≥ 4096 then
    bigAlloc h (roundedSize size)
  else
    smallAlloc h (roundedSize size)

theorem roundedSize_bigMeta : roundedSize sizeofAhaBigMeta = 16 := by decide +kernel

/-- The call of `kmalloc` in `big_alloc`. -/
theorem kmalloc_bigMeta (h : Heap) :
    kmalloc h sizeofAhaBigMeta = smallAlloc h (roundedSize sizeofAhaBigMeta) := by
  rw [kmalloc, if_neg (by decide), if_neg (by rw [roundedSize_bigMeta]; decide)]

/-! ## Release -/

/-- The body of the loop of `big_free`: a page that must be mapped is unmapped. -/
def unmapIdentity (machine : Machine) (addr : ℕ) : Outcome Machine := do
  let (unmapped, machine) ← unmapPage machine addr
  if unmapped then return machine else panic "failed to unmap 0x%p"

/-- The loop of `big_free` that unmaps the page frames. -/
def unmapFrames (machine : Machine) (ptr nbPages : ℕ) : Outcome Machine :=
  (List.range nbPages).foldlM
    (fun machine i => unmapIdentity machine (Word32.add ptr (Word32.mul i 4096))) machine

/-- The end of `kfree`: the chunk at `ptr` of the block is released. -/
def releaseChunk (h : Heap) (i ptr : ℕ) : Outcome Heap := do
  let block ← readCell h.ahaBlockList i
  match (List.range block.totElts).find? fun chunk => block.chunkPtr chunk = ptr with
  | none => panic "ptr (0x%p) hasn't matching chunk in block 0x%p"
  | some chunk =>
    let state ← readCell block.chunkmap chunk
    if state = .free then
      panic "double-free detected!"
    else
      let block' : AhaBlock :=
        { block with
          chunkmap := block.chunkmap.set chunk .free
          nbFrees := Word32.add block.nbFrees 1 }
      return { h with ahaBlockList := h.ahaBlockList.set i block' }

mutual

/-- `kfree`. -/
def kfree (h : Heap) (ptr : ℕ) : Outcome Heap :=
  if ptr = 0 then
    panic "freeing NULL pointer"
  else
    match h.ahaBlockList.findIdx? fun block =>
        ptr ≥ block.firstPtr ∧ ptr < Word32.add block.addr 4096 with
    | some i => releaseChunk h i ptr
    | none =>
      match h.ahaBigList.findIdx? fun bigMeta => bigMeta.ptr = ptr with
      | some i => bigFree h i
      | none => panic "ptr (0x%p) does not belong to any block or big alloc"
termination_by 2 * h.ahaBigList.length + 1

/-- `big_free`. -/
def bigFree (h : Heap) (i : ℕ) : Outcome Heap :=
  match _h : h.ahaBigList[i]? with
  | none => .error .outOfBounds
  | some bigMeta => do
    let machine ← unmapFrames h.machine bigMeta.ptr (bigMeta.size / 4096)
    let pfa ← pfaFree machine.pfa bigMeta.ptr
    kfree
      { machine := { machine with pfa := pfa }
        ahaBlockList := h.ahaBlockList
        ahaBigList := h.ahaBigList.eraseIdx i } bigMeta.addr
termination_by 2 * h.ahaBigList.length
decreasing_by
  have hi := (List.getElem?_eq_some_iff.mp _h).1
  simp only [List.length_eraseIdx, if_pos hi]
  omega

end

end Ahos
