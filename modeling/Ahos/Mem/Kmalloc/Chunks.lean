import Ahos.Mem.Kmalloc.Layout

/-!
# Chunks in memory

Taking a chunk and releasing one write a byte of the chunkmap and the free counter. On a block
that the memory stores, the code finds the chunk that the allocator finds, and leaves the block
that the allocator leaves.
-/

namespace Ahos

section Direct

variable {own : ℕ → Prop} {s : Machine} {x byte : ℕ}

theorem Direct.loadByte (h : Direct own s) (hx : own (WordMemory.wordAddr x)) :
    s.loadByte x = .ok (WordMemory.byte s.mem x) := by
  rw [Machine.loadByte, h.load hx]
  rfl

theorem Direct.storeByte (h : Direct own s) (hx : own (WordMemory.wordAddr x)) :
    s.storeByte x byte = .ok { s with mem := WordMemory.setByte s.mem x byte } := by
  rw [Machine.storeByte, h.load hx, Run.ok_bind, h.store hx]
  rfl

end Direct

namespace Raw

theorem chunkCode_lt (c : ChunkType) : chunkCode c < 256 := by cases c <;> decide

theorem chunkCode_eq_free {c : ChunkType} : chunkCode c = chunkFree ↔ c = .free := by
  cases c <;> decide

/-! ## Marking a chunk -/

/-- The memory after a chunk was marked and the free counter was set. -/
def markedMem (mem : ℕ → ℕ) (block chunk state frees : ℕ) : ℕ → ℕ :=
  Function.update (WordMemory.setByte mem (chunkmap block + chunk) state) (nbFrees block) frees

section Mark

variable {mem : ℕ → ℕ} {b : AhaBlock} {j : ℕ}

/-- Marking changes fields of the block only. -/
theorem markedMem_of_not_field (hb : BlockInv b) (hj : j < b.totElts) {state frees x : ℕ}
    (hx : ¬ BlockField b x) : markedMem mem b.addr j state frees x = mem x := by
  have hfield := blockField_chunk hb hj
  rw [markedMem, Function.update_of_ne, WordMemory.setByte_of_ne]
  · rintro rfl
    exact hx hfield
  · rintro rfl
    exact hx (.inl (by unfold nbFrees; omega))

/-- **Marking a chunk** stores the block with the new state and counter. -/
theorem BlockAt.mark (hb : BlockInv b) (hat : BlockAt mem b) (hj : j < b.totElts) (c : ChunkType)
    (n : ℕ) : BlockAt (markedMem mem b.addr j (chunkCode c) n)
      { b with chunkmap := b.chunkmap.set j c, nbFrees := n } := by
  have halign := hb.align
  -- the bytes of the chunkmap lie behind the fields
  have hword : ∀ i, b.addr + 24 ≤ WordMemory.wordAddr (chunkmap b.addr + i) := by
    intro i
    unfold WordMemory.wordAddr chunkmap sizeofAhaBlock
    omega
  have hfield : ∀ x, x < b.addr + 24 → x ≠ nbFrees b.addr →
      markedMem mem b.addr j (chunkCode c) n x = mem x := by
    intro x hx hne
    have := hword j
    rw [markedMem, Function.update_of_ne hne, WordMemory.setByte_of_ne (by omega)]
  constructor
  case eltSize =>
    rw [hfield _ (by simp only; omega) (by unfold nbFrees; simp only; omega), hat.eltSize]
  case tot =>
    rw [hfield _ (by unfold totElts; simp only; omega)
      (by unfold totElts nbFrees; simp only; omega), hat.tot]
  case frees => exact Function.update_self ..
  case first =>
    rw [hfield _ (by unfold firstPtr; simp only; omega)
      (by unfold firstPtr nbFrees; simp only; omega), hat.first]
  case chunks =>
    intro i c' hc'
    have hi := hword i
    have hbyte : WordMemory.byte (markedMem mem b.addr j (chunkCode c) n) (chunkmap b.addr + i) =
        WordMemory.byte (WordMemory.setByte mem (chunkmap b.addr + j) (chunkCode c))
          (chunkmap b.addr + i) := by
      refine WordMemory.byte_congr (Function.update_of_ne ?_ _ _)
      unfold nbFrees
      omega
    rw [hbyte, WordMemory.byte_setByte (chunkCode_lt c)]
    rw [List.getElem?_set, hb.chunks] at hc'
    by_cases hij : j = i
    · rw [if_pos hij, if_pos hj] at hc'
      rw [if_pos (by omega), Option.some.inj hc']
    · rw [if_neg hij] at hc'
      rw [if_neg (by omega), hat.chunks i c' hc']

end Mark

/-! ## Taking and releasing -/

section Chunk

variable {own : ℕ → Prop} {t : Machine} {b : AhaBlock} {j : ℕ}

/-- The bytes of the chunkmap as the code reads them. -/
theorem loadByte_chunk (ht : Direct own t) (hown : ∀ x, BlockField b x → own x) (hb : BlockInv b)
    (hat : BlockAt t.mem b) (hj : j < b.totElts) :
    ∃ c, b.chunkmap[j]? = some c ∧ t.loadByte (chunkmap b.addr + j) = .ok (chunkCode c) := by
  have hlt : j < b.chunkmap.length := by
    rw [hb.chunks]
    exact hj
  refine ⟨b.chunkmap[j], List.getElem?_eq_getElem hlt, ?_⟩
  rw [ht.loadByte (hown _ (blockField_chunk hb hj)),
    hat.chunks j _ (List.getElem?_eq_getElem hlt)]

/-- **The search for a free chunk** finds the first one. -/
theorem findFreeChunk_eq (ht : Direct own t) (hown : ∀ x, BlockField b x → own x) (hb : BlockInv b)
    (hat : BlockAt t.mem b) {left : ℕ} (hleft : left ≤ b.totElts) :
    findFreeChunk t b.addr b.totElts left =
      .ok ((List.range' (b.totElts - left) left).find? fun chunk =>
        b.chunkmap[chunk]? = some .free) := by
  induction left with
  | zero => rfl
  | succ left ih =>
    obtain ⟨c, hc, hload⟩ := loadByte_chunk (j := b.totElts - (left + 1)) ht hown hb hat (by omega)
    have hnext : b.totElts - (left + 1) + 1 = b.totElts - left := by omega
    rw [findFreeChunk, hload, Run.ok_bind, List.range'_succ, hnext, List.find?_cons, hc]
    by_cases hfree : c = .free
    · rw [if_pos (chunkCode_eq_free.mpr hfree)]
      simp [hfree]
    · rw [if_neg (chunkCode_eq_free.not.mpr hfree), ih (by omega)]
      simp [hfree]

/-- **Taking a chunk** in memory. -/
theorem takeChunk_eq (ht : Direct own t) (hown : ∀ x, BlockField b x → own x) (hb : BlockInv b)
    (hat : BlockAt t.mem b) (hj : j < b.totElts) (hfind : b.findFree = some j) :
    takeChunk t b.addr = .ok (b.chunkPtr j,
      { t with mem := markedMem t.mem b.addr j (chunkCode .used) (Word32.sub b.nbFrees 1) }) := by
  have htot : own (totElts b.addr) := hown _ (.inl (by unfold totElts; omega))
  have hfrees : own (nbFrees b.addr) := hown _ (.inl (by unfold nbFrees; omega))
  have hfirst : own (firstPtr b.addr) := hown _ (.inl (by unfold firstPtr; omega))
  have hsize : own b.addr := hown _ (.inl (by omega))
  have hword := hown _ (blockField_chunk hb hj)
  have hsearch := findFreeChunk_eq ht hown hb hat le_rfl
  rw [Nat.sub_self, ← List.range_eq_range', ← AhaBlock.findFree, hfind] at hsearch
  have ht₁ : Direct own { t with mem := WordMemory.setByte t.mem (chunkmap b.addr + j) chunkUsed } :=
    ht.update hword _
  have hmark := hat.mark hb hj .used (Word32.sub b.nbFrees 1)
  have hread : WordMemory.setByte t.mem (chunkmap b.addr + j) chunkUsed (nbFrees b.addr) =
      b.nbFrees := by
    rw [WordMemory.setByte_of_ne, hat.frees]
    have := (wordAddr_le (chunkmap b.addr + j)).1
    have halign := hb.align
    unfold nbFrees WordMemory.wordAddr chunkmap sizeofAhaBlock
    omega
  have ht₂ : Direct own { t with
      mem := markedMem t.mem b.addr j (chunkCode .used) (Word32.sub b.nbFrees 1) } :=
    ht₁.update hfrees _
  rw [takeChunk, ht.load htot, Run.ok_bind, hat.tot, hsearch, Run.ok_bind]
  simp only [ht.storeByte hword, Run.ok_bind, ht₁.load hfrees, hread, ht₁.store hfrees]
  rw [← markedMem, show chunkUsed = chunkCode .used from rfl, ht₂.load hfirst, Run.ok_bind,
    ht₂.load hsize, Run.ok_bind]
  have hstart : markedMem t.mem b.addr j (chunkCode .used) (Word32.sub b.nbFrees 1)
      (firstPtr b.addr) = b.firstPtr := hmark.first
  have helt : markedMem t.mem b.addr j (chunkCode .used) (Word32.sub b.nbFrees 1) b.addr =
      b.eltSize := hmark.eltSize
  simp only [hstart, helt]
  rfl

/-- A pointer to no chunk of the block. -/
theorem releaseChunk_none (ht : Direct own t) (hown : ∀ x, BlockField b x → own x)
    (hat : BlockAt t.mem b) {ptr : ℕ}
    (hfind : (List.range b.totElts).find? (fun chunk => b.chunkPtr chunk = ptr) = none) :
    releaseChunk t b.addr ptr = panic "ptr (0x%p) hasn't matching chunk in block 0x%p" := by
  have hsearch : (List.range b.totElts).find? (fun chunk =>
      Word32.add b.firstPtr (Word32.mul chunk b.eltSize) = ptr) = none := hfind
  rw [releaseChunk, ht.load (hown _ (.inl (by unfold totElts; omega))), Run.ok_bind,
    ht.load (hown _ (.inl (by unfold firstPtr; omega))), Run.ok_bind,
    ht.load (hown _ (.inl (by omega))), Run.ok_bind, hat.tot, hat.first, hat.eltSize, hsearch]

/-- A pointer to a chunk that is free. -/
theorem releaseChunk_free (ht : Direct own t) (hown : ∀ x, BlockField b x → own x)
    (hb : BlockInv b) (hat : BlockAt t.mem b) {ptr : ℕ}
    (hfind : (List.range b.totElts).find? (fun chunk => b.chunkPtr chunk = ptr) = some j)
    (hfree : b.chunkmap[j]? = some .free) :
    releaseChunk t b.addr ptr = panic "double-free detected!" := by
  have hj : j < b.totElts := List.mem_range.mp (List.mem_of_find?_eq_some hfind)
  have hsearch : (List.range b.totElts).find? (fun chunk =>
      Word32.add b.firstPtr (Word32.mul chunk b.eltSize) = ptr) = some j := hfind
  rw [releaseChunk, ht.load (hown _ (.inl (by unfold totElts; omega))), Run.ok_bind,
    ht.load (hown _ (.inl (by unfold firstPtr; omega))), Run.ok_bind,
    ht.load (hown _ (.inl (by omega))), Run.ok_bind, hat.tot, hat.first, hat.eltSize, hsearch]
  simp only [ht.loadByte (hown _ (blockField_chunk hb hj)), hat.chunks j _ hfree, Run.ok_bind]
  rfl

/-- **Releasing a chunk** in memory. -/
theorem releaseChunk_eq (ht : Direct own t) (hown : ∀ x, BlockField b x → own x) (hb : BlockInv b)
    (hat : BlockAt t.mem b) {ptr : ℕ}
    (hfind : (List.range b.totElts).find? (fun chunk => b.chunkPtr chunk = ptr) = some j)
    (hused : b.chunkmap[j]? = some .used) :
    releaseChunk t b.addr ptr = .ok
      { t with mem := markedMem t.mem b.addr j (chunkCode .free) (Word32.add b.nbFrees 1) } := by
  have hj : j < b.totElts := List.mem_range.mp (List.mem_of_find?_eq_some hfind)
  have htot : own (totElts b.addr) := hown _ (.inl (by unfold totElts; omega))
  have hfrees : own (nbFrees b.addr) := hown _ (.inl (by unfold nbFrees; omega))
  have hfirst : own (firstPtr b.addr) := hown _ (.inl (by unfold firstPtr; omega))
  have hsize : own b.addr := hown _ (.inl (by omega))
  have hword := hown _ (blockField_chunk hb hj)
  have hbyte : t.loadByte (chunkmap b.addr + j) = .ok chunkUsed := by
    rw [ht.loadByte hword, hat.chunks j _ hused]
    rfl
  have ht₁ : Direct own { t with mem := WordMemory.setByte t.mem (chunkmap b.addr + j) chunkFree } :=
    ht.update hword _
  have hread : WordMemory.setByte t.mem (chunkmap b.addr + j) chunkFree (nbFrees b.addr) =
      b.nbFrees := by
    rw [WordMemory.setByte_of_ne, hat.frees]
    have halign := hb.align
    unfold nbFrees WordMemory.wordAddr chunkmap sizeofAhaBlock
    omega
  have hsearch : (List.range b.totElts).find? (fun chunk =>
      Word32.add b.firstPtr (Word32.mul chunk b.eltSize) = ptr) = some j := hfind
  rw [releaseChunk, ht.load htot, Run.ok_bind, ht.load hfirst, Run.ok_bind, ht.load hsize,
    Run.ok_bind, hat.tot, hat.first, hat.eltSize, hsearch]
  simp only [hbyte, Run.ok_bind]
  rw [if_neg (by decide), ht.storeByte hword, Run.ok_bind, ht₁.load hfrees, Run.ok_bind]
  simp only [hread]
  rw [ht₁.store hfrees]
  rfl

end Chunk

end Raw

end Ahos
