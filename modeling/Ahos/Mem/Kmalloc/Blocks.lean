import Ahos.Mem.Kmalloc.Defs

/-!
# Blocks and their chunks

The layout of a block: the header, the chunkmap and the chunks share one page for each of
the nine element sizes, and the chunks are pointer aligned. Taking a chunk and releasing
one change the areas of the used chunks by exactly that chunk and keep the free counter.
-/

namespace Ahos

/-! ## Sizes -/

/-- The least power of two that holds `n` bytes, and at least eight. -/
def allocSize (n : ℕ) : ℕ := 2 ^ Nat.clog 2 (max n 8)

/-- A block can be made for this size: the powers of two from 8 to 2048. -/
def SmallSize (size : ℕ) : Prop := ∃ k, 3 ≤ k ∧ k < 12 ∧ size = 2 ^ k

/-- Page frames are taken for this size: the powers of two from a page on. -/
def BigSize (size : ℕ) : Prop := ∃ k, 12 ≤ k ∧ k ≤ 31 ∧ size = 2 ^ k

theorem isLeast_allocSize (n : ℕ) :
    IsLeast {x | (∃ k, x = 2 ^ k) ∧ max n 8 ≤ x} (allocSize n) := by
  refine ⟨⟨⟨_, rfl⟩, Nat.le_pow_clog (by omega) _⟩, ?_⟩
  rintro x ⟨⟨k, rfl⟩, hle⟩
  exact Nat.pow_le_pow_right (by omega) (Nat.clog_le_of_le_pow hle)

/-- `next_highest_power_of_two` computes the next power of two. -/
theorem nextHighestPowerOfTwo_eq {n : ℕ} (hpos : 0 < n) (hn : n ≤ 2 ^ 31) :
    nextHighestPowerOfTwo n = 2 ^ Nat.clog 2 n := by
  have hsub : Word32.sub n 1 = n - 1 := Word32.sub_of_le hpos (by omega)
  have hspread := (((((Word32.spread_self (n - 1)).shift (s := 1) (by omega)).shift (s := 2)
    (by omega)).shift (s := 4) (by omega)).shift (s := 8) (by omega)).shift (s := 16) (by omega)
  have hpow := hspread.eq_of_lt hpos (by omega)
  have hle : 2 ^ Nat.clog 2 n ≤ 2 ^ 31 :=
    Nat.pow_le_pow_right (by omega) (Nat.clog_le_of_le_pow hn)
  have hone : 0 < 2 ^ Nat.clog 2 n := Nat.two_pow_pos _
  simp only [nextHighestPowerOfTwo, hsub, hpow]
  rw [Word32.add_of_lt (by omega)]
  omega

/-- The size that `kmalloc` computes is the least power of two. -/
theorem roundedSize_eq {n : ℕ} (hn : n ≤ 2 ^ 31) : roundedSize n = allocSize n := by
  have hmax : (if n < 8 then 8 else n) = max n 8 := by
    split_ifs <;> omega
  rw [roundedSize, hmax, allocSize]
  exact nextHighestPowerOfTwo_eq (by omega) (by omega)

theorem allocSize_cases {n : ℕ} (hn : n ≤ 2 ^ 31) :
    SmallSize (allocSize n) ∧ allocSize n < 4096 ∨ BigSize (allocSize n) ∧ 4096 ≤ allocSize n := by
  have hlo : 3 ≤ Nat.clog 2 (max n 8) :=
    (Nat.lt_clog_iff_pow_lt (by omega)).mpr (by omega)
  have hhi : Nat.clog 2 (max n 8) ≤ 31 := Nat.clog_le_of_le_pow (by omega)
  by_cases h : Nat.clog 2 (max n 8) < 12
  · exact .inl ⟨⟨_, hlo, h, rfl⟩, (Nat.pow_lt_pow_iff_right (by omega)).mpr h⟩
  · exact .inr ⟨⟨_, by omega, hhi, rfl⟩, Nat.pow_le_pow_right (n := 2) (i := 12) (by omega) (by omega)⟩

theorem SmallSize.bounds {size : ℕ} (h : SmallSize size) : 8 ≤ size ∧ size ≤ 2048 := by
  obtain ⟨k, hlo, hhi, rfl⟩ := h
  exact ⟨Nat.pow_le_pow_right (n := 2) (by omega) hlo,
    Nat.pow_le_pow_right (n := 2) (j := 11) (by omega) (by omega)⟩

theorem SmallSize.mod_four {size : ℕ} (h : SmallSize size) : size % 4 = 0 := by
  obtain ⟨k, hlo, -, rfl⟩ := h
  exact Nat.mod_eq_zero_of_dvd (Nat.pow_dvd_pow 2 (m := 2) (by omega))

theorem BigSize.bounds {size : ℕ} (h : BigSize size) :
    4096 ≤ size ∧ size ≤ 2147483648 ∧ size = 4096 * (size / 4096) := by
  obtain ⟨k, hlo, hhi, rfl⟩ := h
  refine ⟨Nat.pow_le_pow_right (n := 2) (i := 12) (by omega) hlo,
    Nat.pow_le_pow_right (n := 2) (by omega) hhi, ?_⟩
  exact (Nat.mul_div_cancel' (Nat.pow_dvd_pow 2 (m := 12) hlo)).symm

/-! ## The layout of a block -/

/-- What holds of every block of the list: it fills one page, its fields are the ones that
`new_block` computed, and `nb_frees` counts the free chunks. -/
structure BlockInv (b : AhaBlock) : Prop where
  size : SmallSize b.eltSize
  align : b.addr % 4096 = 0
  below : b.addr + 4096 < 4294967296
  tot : b.totElts = nbElts b.eltSize
  first : b.firstPtr = alignFirstPtr b.addr b.totElts
  chunks : b.chunkmap.length = b.totElts
  frees : b.nbFrees = b.chunkmap.count .free

/-- A block of every size holds an element, and its elements fit next to their chunkmap. -/
theorem nbElts_spec {size : ℕ} (h : SmallSize size) :
    0 < nbElts size ∧ size * nbElts size + nbElts size ≤ 4068 := by
  obtain ⟨-, hhi⟩ := h.bounds
  have hadd : Word32.add 1 size = size + 1 := by
    rw [Word32.add_of_lt (by omega), Nat.add_comm]
  have hfit := Nat.mul_div_le 4068 (size + 1)
  rw [Nat.add_mul, Nat.one_mul] at hfit
  rw [nbElts, hadd]
  exact ⟨Nat.div_pos (by simp only [sizeofAhaBlock]; omega) (by omega), hfit⟩

/-- The first chunk starts at a pointer boundary right behind the chunkmap. -/
theorem alignFirstPtr_spec {block n : ℕ} (hlt : block + 4096 < 4294967296) (hn : n ≤ 4068) :
    alignFirstPtr block n % 4 = 0 ∧ block + 24 + n ≤ alignFirstPtr block n ∧
      alignFirstPtr block n ≤ block + 24 + n + 3 := by
  have hmask : ∀ x, x &&& 3 = x % 4 := fun x => Word32.and_low x 2
  have hptr : Word32.add (Word32.add block sizeofAhaBlock) n = block + 24 + n := by
    rw [Word32.add_of_lt (a := block) (by simp only [sizeofAhaBlock]; omega),
      Word32.add_of_lt (by simp only [sizeofAhaBlock]; omega)]
    rfl
  simp only [alignFirstPtr, hptr, hmask]
  split_ifs with hoff
  · rw [Word32.sub_of_le (by omega) (by omega), Word32.add_of_lt (by omega)]
    omega
  · omega

section Block

variable {b : AhaBlock} {i : ℕ}

/-- The header, the chunkmap and the chunks share the page. -/
theorem BlockInv.layout (h : BlockInv b) :
    0 < b.totElts ∧ b.firstPtr % 4 = 0 ∧ b.addr + 24 + b.totElts ≤ b.firstPtr ∧
      b.firstPtr + b.eltSize * b.totElts ≤ b.addr + 4096 := by
  obtain ⟨hpos, hfit⟩ := nbElts_spec h.size
  rw [← h.tot] at hpos hfit
  obtain ⟨hmod, hlo, hhi⟩ := alignFirstPtr_spec h.below (n := b.totElts) (by omega)
  rw [← h.first] at hmod hlo hhi
  exact ⟨hpos, hmod, hlo, by omega⟩

/-- The area of a chunk. -/
def AhaBlock.chunkArea (b : AhaBlock) (i : ℕ) : ℕ × ℕ := (b.firstPtr + b.eltSize * i, b.eltSize)

/-- A chunk lies inside the page of its block, behind the chunkmap. -/
theorem BlockInv.chunk_inside (h : BlockInv b) (hi : i < b.totElts) :
    b.addr + 24 + b.totElts ≤ b.firstPtr + b.eltSize * i ∧
      b.firstPtr + b.eltSize * i + b.eltSize ≤ b.addr + 4096 := by
  obtain ⟨-, -, hlo, hhi⟩ := h.layout
  have hle : b.eltSize * i + b.eltSize ≤ b.eltSize * b.totElts :=
    Nat.mul_le_mul_left b.eltSize hi
  omega

theorem BlockInv.chunkPtr_eq (h : BlockInv b) (hi : i < b.totElts) :
    b.chunkPtr i = b.firstPtr + b.eltSize * i := by
  have hin := h.chunk_inside hi
  have hbelow := h.below
  rw [AhaBlock.chunkPtr, Word32.add_mul_wrap, Word32.wrap_of_lt (by omega)]

/-- Two byte ranges do not overlap. -/
def AreasApart (a b : ℕ × ℕ) : Prop := a.1 + a.2 ≤ b.1 ∨ b.1 + b.2 ≤ a.1

/-- The chunks in use. -/
def AhaBlock.usedChunks (b : AhaBlock) : List ℕ :=
  (List.range b.totElts).filter fun i => b.chunkmap[i]? = some .used

/-- The areas of the chunks in use. -/
def AhaBlock.usedAreas (b : AhaBlock) : List (ℕ × ℕ) := b.usedChunks.map b.chunkArea

theorem mem_usedAreas {a : ℕ × ℕ} :
    a ∈ b.usedAreas ↔ ∃ i < b.totElts, b.chunkmap[i]? = some .used ∧ b.chunkArea i = a := by
  simp [AhaBlock.usedAreas, AhaBlock.usedChunks, and_assoc]

/-- The used chunks of a block do not overlap. -/
theorem pairwise_usedAreas (b : AhaBlock) : b.usedAreas.Pairwise AreasApart := by
  rw [AhaBlock.usedAreas, AhaBlock.usedChunks, List.pairwise_map]
  refine (List.pairwise_lt_range.filter _).imp fun {i j} hij => .inl ?_
  have hle : b.eltSize * i + b.eltSize ≤ b.eltSize * j := Nat.mul_le_mul_left b.eltSize hij
  simp only [AhaBlock.chunkArea]
  omega

/-! ## Taking and releasing a chunk -/

private theorem filter_range_perm {n : ℕ} {p q : ℕ → Bool} (hi : i < n) (hp : p i = true)
    (hq : q i = false) (h : ∀ j, j ≠ i → p j = q j) :
    ((List.range n).filter p).Perm (i :: (List.range n).filter q) := by
  rw [List.perm_ext_iff_of_nodup (List.nodup_range.filter _)
    (List.nodup_cons.mpr ⟨by simp [hq], List.nodup_range.filter _⟩)]
  intro j
  simp only [List.mem_filter, List.mem_cons, List.mem_range]
  by_cases hj : j = i
  · subst hj
    simp [hi, hp]
  · simp [hj, h j hj]

private theorem usedAreas_set (b : AhaBlock) (i n : ℕ) (c : ChunkType) :
    AhaBlock.usedAreas { b with chunkmap := b.chunkmap.set i c, nbFrees := n } =
      ((List.range b.totElts).filter fun j => (b.chunkmap.set i c)[j]? = some .used).map
        b.chunkArea := rfl

/-- A block with a free chunk has a first free chunk. -/
theorem BlockInv.findFree_spec (h : BlockInv b) (hfrees : 0 < b.nbFrees) :
    ∃ i < b.totElts, b.findFree = some i ∧ b.chunkmap[i]? = some .free := by
  rw [h.frees, List.count_pos_iff] at hfrees
  obtain ⟨j, hj, hget⟩ := List.getElem_of_mem hfrees
  cases hfind : b.findFree with
  | none =>
    have hnone := List.find?_eq_none.mp hfind j (List.mem_range.mpr (h.chunks ▸ hj))
    simp [hj, hget] at hnone
  | some i =>
    have hi := List.mem_range.mp (List.mem_of_find?_eq_some hfind)
    exact ⟨i, hi, rfl, by simpa using List.find?_some hfind⟩

/-- A block stays well formed if its counter follows its chunkmap. -/
theorem BlockInv.set (h : BlockInv b) {c : ChunkType} {n : ℕ}
    (hn : n = (b.chunkmap.set i c).count .free) :
    BlockInv { b with chunkmap := b.chunkmap.set i c, nbFrees := n } :=
  ⟨h.size, h.align, h.below, h.tot, h.first, by simp [h.chunks], hn⟩

theorem BlockInv.count_lt (h : BlockInv b) : b.chunkmap.count .free + 1 < 4294967296 := by
  have hle : b.chunkmap.count .free ≤ b.chunkmap.length := List.count_le_length
  obtain ⟨-, hfit⟩ := nbElts_spec h.size
  rw [← h.tot, ← h.chunks] at hfit
  omega

/-- **Taking a free chunk** keeps the block well formed and adds the chunk to the used ones. -/
theorem BlockInv.take (h : BlockInv b) (hi : i < b.totElts) (hfree : b.chunkmap[i]? = some .free) :
    BlockInv { b with chunkmap := b.chunkmap.set i .used, nbFrees := Word32.sub b.nbFrees 1 } ∧
      (AhaBlock.usedAreas
        { b with chunkmap := b.chunkmap.set i .used, nbFrees := Word32.sub b.nbFrees 1 }).Perm
          (b.chunkArea i :: b.usedAreas) := by
  obtain ⟨hlt, hget⟩ := List.getElem?_eq_some_iff.mp hfree
  have hbound := h.count_lt
  have hpos : 0 < b.chunkmap.count .free := List.count_pos_iff.mpr (hget ▸ List.getElem_mem hlt)
  refine ⟨h.set ?_, ?_⟩
  · rw [h.frees, Word32.sub_of_le hpos (by omega), List.count_set hlt]
    simp [hget]
  · rw [usedAreas_set]
    exact (filter_range_perm hi (p := fun j => (b.chunkmap.set i .used)[j]? = some .used)
      (q := fun j => b.chunkmap[j]? = some .used) (by simp [hlt]) (by simp [hfree])
      fun j hj => by simp [List.getElem?_set_ne (Ne.symm hj)]).map b.chunkArea

/-- **Releasing a used chunk** keeps the block well formed and removes the chunk from the used
ones. -/
theorem BlockInv.release (h : BlockInv b) (hi : i < b.totElts)
    (hused : b.chunkmap[i]? = some .used) :
    BlockInv { b with chunkmap := b.chunkmap.set i .free, nbFrees := Word32.add b.nbFrees 1 } ∧
      b.usedAreas.Perm (b.chunkArea i :: AhaBlock.usedAreas
        { b with chunkmap := b.chunkmap.set i .free, nbFrees := Word32.add b.nbFrees 1 }) := by
  obtain ⟨hlt, hget⟩ := List.getElem?_eq_some_iff.mp hused
  have hbound := h.count_lt
  refine ⟨h.set ?_, ?_⟩
  · rw [h.frees, Word32.add_of_lt (by omega), List.count_set hlt]
    simp [hget]
  · rw [usedAreas_set]
    exact (filter_range_perm hi (p := fun j => b.chunkmap[j]? = some .used)
      (q := fun j => (b.chunkmap.set i .free)[j]? = some .used) (by simp [hused]) (by simp [hlt])
      fun j hj => by simp [List.getElem?_set_ne (Ne.symm hj)]).map b.chunkArea

/-- A new block is well formed and all its chunks are free. -/
theorem blockInv_new {block size : ℕ} (hsize : SmallSize size) (halign : block % 4096 = 0)
    (hbelow : block + 4096 < 4294967296) :
    BlockInv ⟨block, size, nbElts size, nbElts size, alignFirstPtr block (nbElts size),
        List.replicate (nbElts size) .free⟩ ∧
      AhaBlock.usedAreas ⟨block, size, nbElts size, nbElts size,
        alignFirstPtr block (nbElts size), List.replicate (nbElts size) .free⟩ = [] := by
  refine ⟨⟨hsize, halign, hbelow, rfl, rfl, by simp, by simp⟩, ?_⟩
  rw [AhaBlock.usedAreas, AhaBlock.usedChunks, List.filter_eq_nil_iff.mpr, List.map_nil]
  intro i hi
  simp [List.mem_range.mp hi]

end Block

end Ahos
